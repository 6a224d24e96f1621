import KairosEngine.Daemon.Residency

/-!
# How much of the committed sequence a prompt shares

The longest common prefix, and the retokenization seam of `routes.rs` that lets a
prompt take the committed spelling of the same bytes.
-/

namespace KairosEngine.Daemon

abbrev Bytes := List UInt8

abbrev Decode := Int → Bytes

def commonPrefix : List Int → List Int → Nat
  | left :: lefts, right :: rights =>
      if left = right then commonPrefix lefts rights + 1 else 0
  | _, _ => 0

theorem commonPrefix_le_left (left right : List Int) :
    commonPrefix left right ≤ left.length := by
  fun_induction commonPrefix left right with
  | case1 head lefts rights inductionHypothesis => simpa using inductionHypothesis
  | case2 => exact Nat.zero_le _
  | case3 => exact Nat.zero_le _

theorem commonPrefix_le_right (left right : List Int) :
    commonPrefix left right ≤ right.length := by
  fun_induction commonPrefix left right with
  | case1 head lefts rights inductionHypothesis => simpa using inductionHypothesis
  | case2 => exact Nat.zero_le _
  | case3 => exact Nat.zero_le _

theorem take_commonPrefix (left right : List Int) :
    left.take (commonPrefix left right) = right.take (commonPrefix left right) := by
  fun_induction commonPrefix left right with
  | case1 head lefts rights inductionHypothesis =>
      simpa only [List.take_succ_cons, List.cons.injEq, true_and] using inductionHypothesis
  | case2 => rfl
  | case3 => rfl

/-! ## The seam -/

/-- Where a join was refused; the offsets are byte offsets into the committed tail. -/
inductive ReseamRefusal where
  | tooLong
  | noEvidence
  | zeroWidth (index at_ : Nat)
  | straddles (index at_ : Nat)
  | disagrees (index at_ : Nat)
  | endsInside (at_ : Nat)
  deriving DecidableEq, Repr

/-- `reseam_skip_dressing`: how many of the first eight committed ids spell exactly the
dressing, with something left behind them. -/
def reseamSkipDressing (decode : Decode) (committedTail : List Int) (dressing : Bytes) : Nat :=
  if dressing = [] then 0 else go committedTail dressing 0 8
where
  go : List Int → Bytes → Nat → Nat → Nat
    | id :: rest, remaining, index, budget + 1 =>
        let bytes := decode id
        if bytes = [] then
          0
        else if remaining.length < bytes.length then
          0
        else if remaining = bytes then
          if rest = [] then 0 else index + 1
        else if remaining.take bytes.length = bytes then
          go rest (remaining.drop bytes.length) (index + 1) budget
        else
          0
    | _, _, _, _ => 0

/-- One pass over the gap list, dropping each gap the remaining bytes start with. -/
def dropGaps (gaps : List Bytes) (remaining : Bytes) : Bytes :=
  gaps.foldl
    (fun rest gap => if gap ≠ [] ∧ gap.isPrefixOf rest then rest.drop gap.length else rest)
    remaining

/-- `skip_gaps`: passes until one moves nothing. -/
def skipGaps (gaps : List Bytes) (remaining : Bytes) : Bytes :=
  let next := dropGaps gaps remaining
  if next.length < remaining.length then skipGaps gaps next else remaining
termination_by remaining.length

/-- `reseam_join`: how many incoming ids spell the committed tail byte for byte, where
the committed side may carry gaps no prompt can spell. -/
def reseamJoin (decode : Decode) (committedTail incoming : List Int) (gaps : List Bytes) :
    Except ReseamRefusal Nat :=
  let tail := committedTail.flatMap decode
  if 1048576 < tail.length then
    .error .tooLong
  else if tail = [] then
    .error .noEvidence
  else
    let remaining := skipGaps gaps tail
    if remaining = [] then .ok 0 else walk tail.length incoming remaining 0
where
  walk (total : Nat) : List Int → Bytes → Nat → Except ReseamRefusal Nat
    | [], remaining, _ => .error (.endsInside (total - remaining.length))
    | id :: rest, remaining, index =>
        let bytes := decode id
        let at_ := total - remaining.length
        if bytes = [] then
          .error (.zeroWidth index at_)
        else if remaining.length < bytes.length then
          .error (.straddles index at_)
        else if remaining.take bytes.length = bytes then
          let next := skipGaps gaps (remaining.drop bytes.length)
          if next = [] then .ok (index + 1) else walk total rest next (index + 1)
        else
          .error (.disagrees index at_)

def reseamDressing : Bytes := "<|channel>thought\n".toUTF8.toList

def reseamGaps : List Bytes :=
  ["<turn|>\n".toUTF8.toList, "<|turn>model\n".toUTF8.toList,
    "<|channel>thought\n".toUTF8.toList]

/-! ## The match -/

/-- The prompt, how much of it the cache already holds, and how much of the
committed sequence has to go for that. -/
structure PromptMatch where
  tokens : List Int
  lcp : Nat
  drop : Nat
  deriving DecidableEq, Repr

def matchCommitted (reseam : Bool) (decode : Decode) (committed tokens : List Int) :
    PromptMatch :=
  let bound := min committed.length (tokens.length - 1)
  let lcp := commonPrefix (tokens.take bound) (committed.take bound)
  let drop := committed.length - lcp
  let asSpelled : PromptMatch := { tokens, lcp, drop }
  if 0 < drop ∧ 1 ≤ lcp ∧ reseam = true then
    let tail := committed.drop lcp
    let skip := reseamSkipDressing decode tail reseamDressing
    match reseamJoin decode (tail.drop skip) (tokens.drop lcp) reseamGaps with
    | .ok joined =>
        { tokens := committed ++ tokens.drop (lcp + joined)
          lcp := committed.length
          drop := 0 }
    | .error _ => asSpelled
  else
    asSpelled

/-- The matched prefix of the prompt is a prefix of the committed sequence, and the
rest of the committed sequence is what has to be dropped. -/
theorem matchCommitted_spec (reseam : Bool) (decode : Decode) (committed tokens : List Int) :
    let found := matchCommitted reseam decode committed tokens
    found.lcp ≤ committed.length ∧ found.drop = committed.length - found.lcp ∧
      found.tokens.take found.lcp = committed.take found.lcp ∧
      (tokens ≠ [] → committed ≠ [] → found.tokens ≠ []) := by
  have spelled : ∀ bound ≤ committed.length,
      commonPrefix (tokens.take bound) (committed.take bound) ≤ committed.length ∧
      tokens.take (commonPrefix (tokens.take bound) (committed.take bound)) =
        committed.take (commonPrefix (tokens.take bound) (committed.take bound)) := by
    intro bound bounded
    have left := commonPrefix_le_left (tokens.take bound) (committed.take bound)
    have right := commonPrefix_le_right (tokens.take bound) (committed.take bound)
    have same := take_commonPrefix (tokens.take bound) (committed.take bound)
    rw [List.length_take] at left right
    rw [List.take_take, List.take_take, Nat.min_eq_left (Nat.le_trans left (Nat.min_le_left _ _))] at same
    exact ⟨Nat.le_trans right (Nat.min_le_right _ _), same⟩
  obtain ⟨short, same⟩ := spelled (min committed.length (tokens.length - 1)) (Nat.min_le_left _ _)
  unfold matchCommitted
  simp only
  split
  next =>
    split
    next joined _ =>
      refine ⟨Nat.le_refl _, by simp, by simp, ?_⟩
      intro _ nonempty
      simp [nonempty]
    next => exact ⟨short, rfl, same, fun nonempty _ => nonempty⟩
  next => exact ⟨short, rfl, same, fun nonempty _ => nonempty⟩

end KairosEngine.Daemon
