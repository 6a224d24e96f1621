import KairosEngine.Library.Continuation
import KairosEngine.Library.Ieee

/-!
# Speculative decoding

`spec_step` lets a draft model guess tokens and a target model check them.  For models that
depend on the token history alone, every step leaves both sessions where the target would have
gone by itself.
-/

namespace KairosEngine.Daemon

open KairosEngine.Library

/-- `max_by` on `partial_cmp`, where unordered logits count as equal: of two entries the later
one stays unless it is smaller. -/
def laterUnlessBelow (best : Option (Ieee × Nat)) (entry : Ieee × Nat) : Option (Ieee × Nat) :=
  match best with
  | none => some entry
  | some holder => if entry.1.lt holder.1 then some holder else some entry

def argmax (logits : List Ieee) : Int :=
  match logits.zipIdx.foldl laterUnlessBelow none with
  | some (_, index) => Int.bmod index (2 ^ 32)
  | none => 0

/-- The calls of a session into the engine.  A decode writes as many logits as the buffer it is
given has room for. -/
structure Backend (Session : Type) where
  decodeStep : Session → Int → Nat → Except String (Session × List Ieee)
  rewind : Session → Nat → Except String Session

structure SpecResult where
  accepted : List Int
  nextTargetLogits : List Ieee
  nextDraftLogits : Option (List Ieee)

variable {Target Draft : Type}

/-- The draft decodes its own last token, `count` times. -/
def draftTokens (backend : Backend Draft) (vocabSize : Nat) :
    Nat → Draft → List Int → Except String (Draft × List Int)
  | 0, draft, tokens => .ok (draft, tokens)
  | count + 1, draft, tokens => do
      let (draft, logits) ← backend.decodeStep draft (tokens.getLastD 0) vocabSize
      draftTokens backend vocabSize count draft (tokens ++ [argmax logits])

/-- What the target made of the draft tokens, and the index of the one it rejected. -/
structure Verified (Target : Type) where
  target : Target
  logits : List Ieee
  accepted : List Int
  rejected : Option Nat

def verifyTokens (backend : Backend Target) :
    List Int → Nat → Target → List Ieee → List Int → Except String (Verified Target)
  | [], _, target, logits, accepted => .ok { target, logits, accepted, rejected := none }
  | token :: rest, index, target, logits, accepted =>
      if argmax logits = token then do
        let (target, logits) ← backend.decodeStep target token logits.length
        verifyTokens backend rest (index + 1) target logits (accepted ++ [token])
      else
        .ok { target, logits, accepted, rejected := some index }

/-- One iteration: the sessions after it, and what it returns. -/
def specStep (targetBackend : Backend Target) (draftBackend : Backend Draft) (target : Target)
    (draft : Draft) (targetLogits draftLogits : List Ieee) (k vocabSize : Nat) :
    Except String (Target × Draft × SpecResult) := do
  let (draft, tokens) ← draftTokens draftBackend vocabSize (k - 1) draft [argmax draftLogits]
  let verified ← verifyTokens targetBackend tokens 0 target targetLogits []
  match verified.rejected with
  | some index =>
      let rewindBy := k - 1 - index
      let draft ← if 0 < rewindBy then draftBackend.rewind draft rewindBy else .ok draft
      return (verified.target, draft,
        { accepted := verified.accepted
          nextTargetLogits := verified.logits
          nextDraftLogits := none })
  | none =>
      let (draft, logits) ← draftBackend.decodeStep draft (tokens.getLastD 0) vocabSize
      return (verified.target, draft,
        { accepted := verified.accepted
          nextTargetLogits := verified.logits
          nextDraftLogits := some logits })

/-! ## Models of the history -/

/-- A decode is a function of the tokens so far, and a rewind restores the state that many tokens
earlier. -/
structure Backend.Deterministic {Session : Type} (backend : Backend Session) (width : Nat)
    (state : List Int → Session) (logits : List Int → List Ieee) : Prop where
  wide : ∀ history, (logits history).length = width
  decode : ∀ history token, backend.decodeStep (state history) token width =
    .ok (state (history ++ [token]), logits (history ++ [token]))
  rewind : ∀ history tokens, backend.rewind (state (history ++ tokens)) tokens.length =
    .ok (state history)

/-- The model's own greedy continuation. -/
def greedy (logits : List Int → List Ieee) (history : List Int) (count : Nat) : List Int :=
  continuation (fun tokens => argmax (logits tokens)) history count

section Lossless

variable {targetBackend : Backend Target} {draftBackend : Backend Draft} {width vocabSize : Nat}
variable {targetState : List Int → Target} {draftState : List Int → Draft}
variable {targetLogits draftLogits : List Int → List Ieee} {history : List Int}

theorem greedy_succ (logits : List Int → List Ieee) (count : Nat) :
    greedy logits history (count + 1) =
      greedy logits history count ++ [argmax (logits (history ++ greedy logits history count))] :=
  rfl

theorem getLastD_greedy_succ (logits : List Int → List Ieee) (count : Nat) :
    (greedy logits history (count + 1)).getLastD 0 =
      argmax (logits (history ++ greedy logits history count)) := by
  rw [greedy_succ, List.getLastD_concat]

/-- A session that decodes its own greedy token goes on along the continuation. -/
theorem Backend.Deterministic.decode_greedy {Session : Type} {backend : Backend Session}
    {state : List Int → Session} {logits : List Int → List Ieee}
    (deterministic : backend.Deterministic width state logits) (count : Nat) :
    backend.decodeStep (state (history ++ greedy logits history count))
        (argmax (logits (history ++ greedy logits history count))) width =
      .ok (state (history ++ greedy logits history (count + 1)),
        logits (history ++ greedy logits history (count + 1))) := by
  rw [deterministic.decode, List.append_assoc, ← greedy_succ]

theorem draftTokens_greedy
    (deterministic : draftBackend.Deterministic vocabSize draftState draftLogits)
    (count done : Nat) :
    draftTokens draftBackend vocabSize count (draftState (history ++ greedy draftLogits history done))
        (greedy draftLogits history (done + 1)) =
      .ok (draftState (history ++ greedy draftLogits history (done + count)),
        greedy draftLogits history (done + count + 1)) := by
  induction count generalizing done with
  | zero => rfl
  | succ count inductionHypothesis =>
      have further := inductionHypothesis (done + 1)
      rw [Nat.add_right_comm done 1 count] at further
      simp only [draftTokens, getLastD_greedy_succ, deterministic.decode_greedy, bind, Except.bind]
      exact further

/-- The target has accepted the first tokens of the draft, which are its own as well, and looks
at the others. -/
theorem verifyTokens_greedy
    (deterministic : targetBackend.Deterministic width targetState targetLogits) (k : Nat)
    (rest : Nat) {index : Nat} (split : index + rest = k)
    (agreed : greedy targetLogits history index = greedy draftLogits history index) :
    ∃ count ≤ k, greedy targetLogits history count = greedy draftLogits history count ∧
      verifyTokens targetBackend ((greedy draftLogits history k).drop index) index
          (targetState (history ++ greedy draftLogits history index))
          (targetLogits (history ++ greedy draftLogits history index))
          (greedy draftLogits history index) =
        .ok
          { target := targetState (history ++ greedy draftLogits history count)
            logits := targetLogits (history ++ greedy draftLogits history count)
            accepted := greedy draftLogits history count
            rejected := if count = k then none else some count } := by
  induction rest generalizing index with
  | zero =>
      obtain rfl : index = k := split
      refine ⟨index, Nat.le_refl _, agreed, ?_⟩
      have nothing : (greedy draftLogits history index).drop index = [] :=
        List.drop_of_length_le (Nat.le_of_eq (continuation_length index))
      rw [nothing, if_pos rfl]
      rfl
  | succ rest inductionHypothesis =>
      have inside : index < k := by omega
      have long : index < (greedy draftLogits history k).length :=
        Nat.lt_of_lt_of_eq inside (continuation_length k).symm
      have here : (greedy draftLogits history k)[index] =
          argmax (draftLogits (history ++ greedy draftLogits history index)) := by
        have known := @getElem?_continuation _ (fun tokens => argmax (draftLogits tokens)) history
          index k inside
        rw [← Option.some.injEq, ← List.getElem?_eq_getElem long]
        exact known
      rw [List.drop_eq_getElem_cons long, here, verifyTokens]
      by_cases same : argmax (targetLogits (history ++ greedy draftLogits history index)) =
          argmax (draftLogits (history ++ greedy draftLogits history index))
      · rw [if_pos same, deterministic.wide, deterministic.decode, List.append_assoc,
          ← greedy_succ]
        apply inductionHypothesis
        · omega
        · rw [greedy_succ, greedy_succ, agreed, same]
      · refine ⟨index, Nat.le_of_lt inside, agreed, ?_⟩
        rw [if_neg same, if_neg (Nat.ne_of_lt inside)]

/-- A rewind takes a session back along its continuation. -/
theorem Backend.Deterministic.rewind_greedy {Session : Type} {backend : Backend Session}
    {state : List Int → Session} {logits : List Int → List Ieee}
    (deterministic : backend.Deterministic width state logits) {count total : Nat}
    (within : count ≤ total) :
    backend.rewind (state (history ++ greedy logits history total)) (total - count) =
      .ok (state (history ++ greedy logits history count)) := by
  obtain ⟨rest, split⟩ : greedy logits history count <+: greedy logits history total :=
    continuation_begins within
  have length : rest.length = total - count := by
    have lengths := congrArg List.length split
    simp only [greedy, List.length_append, continuation_length] at lengths
    omega
  have back := deterministic.rewind (history ++ greedy logits history count) rest
  rw [List.append_assoc, split, length] at back
  exact back

end Lossless

/-- A session that is its own history. -/
def historyBackend (logits : List Int → List Ieee) : Backend (List Int) where
  decodeStep history token _ := .ok (history ++ [token], logits (history ++ [token]))
  rewind history count :=
    if count ≤ history.length then .ok (history.take (history.length - count))
    else .error "rewind"

theorem historyBackend_deterministic {logits : List Int → List Ieee} {width : Nat}
    (wide : ∀ history, (logits history).length = width) :
    (historyBackend logits).Deterministic width id logits where
  wide := wide
  decode := fun _ _ => rfl
  rewind := fun history tokens => by
    simp only [historyBackend, id_eq, List.length_append]
    rw [if_pos (Nat.le_add_left _ _), Nat.add_sub_cancel, List.take_left]

/-- Counts to three, but for one slip at the second token. -/
def countingLogits (slips : Bool) (history : List Int) : List Ieee :=
  (List.range 3).map fun token =>
    if token = (if slips && history.length == 1 then 0 else history.length % 3) then .finite 1
    else .finite 0

theorem countingLogits_length (slips : Bool) (history : List Int) :
    (countingLogits slips history).length = 3 := rfl

example : greedy (countingLogits false) [] 4 = [0, 1, 2, 0] := by decide

example : greedy (countingLogits true) [] 4 = [0, 0, 2, 0] := by decide

end KairosEngine.Daemon
