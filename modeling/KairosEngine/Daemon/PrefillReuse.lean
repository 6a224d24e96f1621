import KairosEngine.Daemon.PromptMatch

/-!
# The reuse and prefill sections of a chat turn

`run_kvdecode_chat` from the committed-prefix guard to the end of the prompt
prefill.  Each call site of a verb has its own name, so that a failure pattern is
one verdict per site; every site is reached at most once in a turn.
-/

namespace KairosEngine.Daemon

open Residency

/-! ## Dispatch arithmetic of `batch_cont_prefill.rs` -/

def minSuffix : Nat := 64
def batchMsPerTok : Nat := 13
def pertokMsPerTok : Nat := 80
def snapOverheadMs : Nat := 200
def suffixMsPerTok : Nat := 22
def suffixSnapMs : Nat := 500

def suffixBatchMinSuffix : Nat :=
  max (suffixSnapMs / (pertokMsPerTok - suffixMsPerTok)) minSuffix

def suffixBatchWins (prefillFrom suffixLen : Nat) : Bool :=
  decide (0 < prefillFrom) && decide (suffixBatchMinSuffix < suffixLen)

def fullRebatchMinSuffix (prefillFrom : Nat) : Nat :=
  max ((batchMsPerTok * prefillFrom + snapOverheadMs) / (pertokMsPerTok - batchMsPerTok))
    minSuffix

def fullRebatchWins (prefillFrom suffixLen : Nat) : Bool :=
  if prefillFrom = 0 then false else decide (fullRebatchMinSuffix prefillFrom < suffixLen)

def wantBatchContGated (flagOn suffixOn singleEntry : Bool) (prefillFrom suffixLen : Nat) :
    Bool :=
  if !flagOn || singleEntry then
    false
  else if suffixOn then
    suffixBatchWins prefillFrom suffixLen
  else
    fullRebatchWins prefillFrom suffixLen

theorem wantBatchContGated_warm {flagOn suffixOn singleEntry : Bool}
    {prefillFrom suffixLen : Nat}
    (wanted : wantBatchContGated flagOn suffixOn singleEntry prefillFrom suffixLen = true) :
    0 < prefillFrom ∧ singleEntry = false := by
  unfold wantBatchContGated at wanted
  split at wanted
  next => simp at wanted
  next armed =>
    simp only [Bool.or_eq_true, Bool.not_eq_true', not_or, Bool.not_eq_true,
      Bool.not_eq_false] at armed
    refine ⟨?_, armed.2⟩
    split at wanted
    next =>
      simp only [suffixBatchWins, Bool.and_eq_true, decide_eq_true_eq] at wanted
      exact wanted.1
    next =>
      unfold fullRebatchWins at wanted
      split at wanted
      next => simp at wanted
      next warm => exact Nat.pos_of_ne_zero warm

/-! ## Environment and failure pattern -/

/-- The flags the two sections read. -/
structure PrefillEnv where
  /-- Every conjunct of `persist_kv` but `!single_entry`. -/
  persistArmed : Bool
  singleEntry : Bool
  /-- The engine's own reading of `SP_PERSIST_KV`. -/
  enginePersist : Bool
  reseam : Bool
  prefixSnapshot : Bool
  rollSnapshot : Bool
  prefillBatch : Bool
  batchCont : Bool
  batchSuffix : Bool
  jmax : Option Nat
  rewindBound : Option Nat
  rollMin : Option Nat
  rollMargin : Option Nat
  deriving DecidableEq, Repr

namespace PrefillEnv

def persistKv (env : PrefillEnv) : Bool := env.persistArmed && !env.singleEntry

/-- `REWIND_BOUND`, kept strictly inside the undo journal. -/
def boundOfRewind (env : PrefillEnv) : Nat :=
  min (env.rewindBound.getD 32) (env.jmax.getD 64 - 1)

def rollSnapMin (env : PrefillEnv) : Nat := env.rollMin.getD 384

def rollSnapMargin (env : PrefillEnv) : Nat := env.rollMargin.getD 16

end PrefillEnv

/-- The call sites of the KV verbs, in source order. -/
inductive Site where
  | rewind
  | hitRestore
  | captureBatch | captureBatchOneShot | capturePrefill
  | captureBytes | captureSnapshot | captureRestore
  | coldBatch | coldBatchOneShot | coldBytes | coldSnapshot | coldRestore
  | insuranceBytes | insuranceSnapshot
  | suffixBatch | suffixBatchHead | suffixBatchTail | suffixRollBytes | suffixRollSnapshot
  | suffixBytes | suffixSnapshot | suffixRestore
  | fullRebatch | fullBytes | fullSnapshot | fullRestore
  | insuranceRestore | recoveryPrefill
  | inject | head | headFirst | headSecond | headRollBytes | headRollSnapshot
  deriving DecidableEq, Repr

/-- What the two sections are given besides the residency. -/
structure PrefillInput where
  env : PrefillEnv
  decode : Decode
  faults : Site → Verdict

namespace PrefillInput

variable (input : PrefillInput)

def prefixSnapMin : Nat := 256

/-! ## Reuse -/

/-- A call made as one-shot: the flag is cleared again on both endings. -/
def asOneShot (verb : Residency → Except Residency Residency) (res : Residency) :
    Except Residency Residency :=
  match verb (res.setOneshot true) with
  | .ok next => .ok (next.setOneshot false)
  | .error left => .error (left.setOneshot false)

/-- Copy the cache out, reset it and put the copy back. -/
def roundTrip (bytes snapshot restore : Site) (P : Nat) (res : Residency) :
    Except Residency Residency := do
  let _ ← res.prefixBytes (input.faults bytes)
  let blob ← res.snapshotPrefix (input.faults snapshot) P
  res.reset.restorePrefix (input.faults restore) blob

/-- The batched forwards tried by a capture, on a reset cache; `false` hands the prefix
to the per-token path, with the cache reset again. -/
def captureForward (shared : List Int) (want : Nat) (cold : Residency) : Bool × Residency :=
  if 64 < want && !input.env.singleEntry && input.env.prefillBatch then
    match cold.prefillBatched input.env.enginePersist (input.faults .captureBatch) shared with
    | .ok built => (true, built)
    | .error left =>
        match asOneShot (prefillBatched input.env.enginePersist
          (input.faults .captureBatchOneShot) shared) left.reset with
        | .ok built => (true, built)
        | .error left => (false, left.reset)
  else
    (false, cold)

/-- A batched ring state is not continued from: it is replaced by its own copy. -/
def captureStanding (batched : Bool) (blob : List Entry) (filled : Residency) :
    Except Residency Residency :=
  if batched then filled.reset.restorePrefix (input.faults .captureRestore) blob
  else .ok filled

/-- The slow path of the prefix snapshot: prefill the shared prefix and copy it. -/
def captureBase (tokens : List Int) (want : Nat) (res : Residency) :
    Except Residency (Residency × List Entry) := do
  let forward := input.captureForward (tokens.take want) want res.reset
  let filled ← bif forward.1 then .ok forward.2
    else forward.2.prefill (input.faults .capturePrefill) (tokens.take want)
  let _ ← filled.prefixBytes (input.faults .captureBytes)
  let blob ← filled.snapshotPrefix (input.faults .captureSnapshot) want
  let standing ← input.captureStanding forward.1 blob filled
  return (standing, blob)

/-- A slot serves this prompt: minted by the live model and a prefix of the match. -/
def usable (tokens : List Int) (want : Nat) (modelTag : Option String) (snap : PrefixSnap) :
    Bool :=
  (modelTag == some snap.tag) && decide (snap.toks.length ≤ want) && !snap.toks.isEmpty &&
    (tokens.take snap.toks.length == snap.toks)

/-- Restore a slot into a reset cache; a slot that fails is dropped by `drop`. -/
def restoreHit (snap : PrefixSnap) (drop : Residency → Residency) (res : Residency) :
    Nat × Residency :=
  match res.reset.restorePrefix (input.faults .hitRestore) snap.blob with
  | .ok next => (snap.toks.length, next)
  | .error left => (0, drop left.reset)

/-- The prefix snapshot: rolling slot first, base slot second, else capture once. -/
def snapshotReuse (tokens : List Int) (lcp : Nat) (res : Residency) : Nat × Residency :=
  let want := min lcp (tokens.length - 1)
  let serves := usable tokens want res.modelTag
  match res.rollSnap.filter serves with
  | some snap => input.restoreHit snap (fun left => { left with rollSnap := none }) res
  | none =>
      let res := { res with rollSnap := none }
      match res.prefixSnap.filter serves with
      | some snap => input.restoreHit snap (fun left => { left with prefixSnap := none }) res
      | none =>
          match input.captureBase tokens want res with
          | .ok (standing, blob) =>
              match res.modelTag with
              | some tag =>
                  (want, { standing with
                    prefixSnap := some { toks := tokens.take want, blob, tag } })
              | none => (want, standing)
          | .error left => (0, left.reset)

/-- The prompt after the seam, how much of it the cache holds, and the residency. -/
structure Reused where
  tokens : List Int
  prefillFrom : Nat
  res : Residency
  deriving DecidableEq, Repr

/-- Reuse of a trusted committed sequence of the cache's length. -/
def reuseCommitted (tokens : List Int) (res : Residency) : Reused :=
  let found := matchCommitted input.env.reseam input.decode res.committed tokens
  let res := { res with lastTailGap := found.tokens.length - found.lcp }
  let rewound :=
    if 1 ≤ found.lcp ∧ found.lcp < found.tokens.length ∧
        found.drop ≤ input.env.boundOfRewind then
      if 0 < found.drop then res.rewind (input.faults .rewind) found.drop else .ok res
    else
      .error res
  match rewound with
  | .ok next => { tokens := found.tokens, prefillFrom := found.lcp, res := next }
  | .error left =>
      if prefixSnapMin ≤ found.lcp ∧ found.lcp < found.tokens.length ∧
          input.env.prefixSnapshot = true then
        let (prefillFrom, next) := input.snapshotReuse found.tokens found.lcp left
        { tokens := found.tokens, prefillFrom, res := next }
      else
        { tokens := found.tokens, prefillFrom := 0, res := left }

def reuse (tokens : List Int) (res : Residency) : Reused :=
  let reused :=
    if input.env.persistKv = true ∧ res.tagOk = true ∧ 1 ≤ res.committed.length ∧
        res.position = res.committed.length then
      input.reuseCommitted tokens res
    else
      { tokens, prefillFrom := 0, res }
  if reused.prefillFrom = 0 ∧ 0 < res.position then
    { reused with res := reused.res.reset }
  else
    reused

/-! ## Prefill -/

/-- `roll_capture`: keep the cache as the rolling prefix if it is longer than the
slot's; any failure keeps the old slot. -/
def rollCapture (bytes snapshot : Site) (toks : List Int) (res : Residency) : Residency :=
  match res.modelTag with
  | none => res
  | some tag =>
      if res.rollSnap.any (fun snap => decide (toks.length ≤ snap.toks.length)) then
        res
      else
        match res.prefixBytes (input.faults bytes) with
        | .error _ => res
        | .ok _ =>
            match res.snapshotPrefix (input.faults snapshot) toks.length with
            | .error _ => res
            | .ok blob => { res with rollSnap := some { toks, blob, tag } }

/-- Where the suffix prefill stops to keep a copy; 0 means it does not. -/
def rollSplit (suffixLen lastTailGap : Nat) : Nat :=
  let wantRoll := decide (input.env.rollSnapMin ≤ suffixLen) && input.env.prefixSnapshot &&
    input.env.rollSnapshot
  let need := max (lastTailGap + 64) input.env.rollSnapMargin
  if wantRoll && decide (need < suffixLen) then suffixLen - need else 0

/-- One n-wide batched forward on a cold cache, with the snapshot round trip as its
second try. -/
def coldBatch (head : List Int) (res : Residency) : Except Residency Residency :=
  match res.prefillBatched input.env.enginePersist (input.faults .coldBatch) head with
  | .ok next => .ok next
  | .error left =>
      let attempt : Except Residency Residency := do
        let built ← asOneShot (prefillBatched input.env.enginePersist
          (input.faults .coldBatchOneShot) head) left
        input.roundTrip .coldBytes .coldSnapshot .coldRestore head.length built
      match attempt with
      | .ok next => .ok next
      | .error left => .error left.reset

/-- The suffix as one batch, or as two around a kept copy. -/
def suffixForward (fullHead : List Int) (prefillFrom split : Nat) (res : Residency) :
    Except Residency Residency :=
  let head := fullHead.drop prefillFrom
  if 0 < split ∧ split < head.length then do
    let first ← res.prefillBatchedFrom input.env.enginePersist
      (input.faults .suffixBatchHead) (head.take split) prefillFrom
    let kept := input.rollCapture .suffixRollBytes .suffixRollSnapshot
      (fullHead.take (prefillFrom + split)) first
    kept.prefillBatchedFrom input.env.enginePersist (input.faults .suffixBatchTail)
      (head.drop split) (prefillFrom + split)
  else
    res.prefillBatchedFrom input.env.enginePersist (input.faults .suffixBatch) head
      prefillFrom

/-- The suffix arm of the warm continuation. -/
def suffixBatch (fullHead : List Int) (prefillFrom split : Nat) (res : Residency) :
    Except Residency Residency := do
  let extended ← input.suffixForward fullHead prefillFrom split res
  input.roundTrip .suffixBytes .suffixSnapshot .suffixRestore fullHead.length extended

/-- The suffix batch if armed, else or after its failure the full re-batch where that
beats the per-token suffix. -/
def warmAttempt (fullHead : List Int) (prefillFrom split : Nat) (res : Residency) :
    Except Residency Residency :=
  let suffix :=
    if input.env.batchSuffix then input.suffixBatch fullHead prefillFrom split res
    else .error res
  match suffix with
  | .ok next => .ok next
  | .error left =>
      if fullRebatchWins prefillFrom (fullHead.length - prefillFrom) then do
        let built ← asOneShot (fun res => res.reset.prefillBatched input.env.enginePersist
          (input.faults .fullRebatch) fullHead) left
        input.roundTrip .fullBytes .fullSnapshot .fullRestore fullHead.length built
      else
        .error left

/-- After a declined attempt: put the insured prefix back, and if that fails prefill the
whole head on what the failed restore left. -/
def warmRecover (fullHead : List Int) (insured : List Entry) (res : Residency) :
    Except Residency Residency :=
  match (res.setOneshot false).reset.restorePrefix (input.faults .insuranceRestore) insured with
  | .ok next => .error next
  | .error left => left.prefill (input.faults .recoveryPrefill) fullHead

/-- The warm continuation; an error goes on to the per-token suffix. -/
def warmBatch (fullHead : List Int) (prefillFrom split : Nat) (res : Residency) :
    Except Residency Residency := do
  let _ ← res.prefixBytes (input.faults .insuranceBytes)
  let insured ← res.snapshotPrefix (input.faults .insuranceSnapshot) prefillFrom
  match input.warmAttempt fullHead prefillFrom split res with
  | .ok next => .ok next
  | .error left => input.warmRecover fullHead insured left

/-- The per-token suffix, the floor under every batched arm.  Its failure is the error
the turn reports. -/
def perToken (fullHead : List Int) (prefillFrom split : Nat) (res : Residency) :
    Except Residency Residency :=
  let head := fullHead.drop prefillFrom
  if input.env.singleEntry then
    res.injectTokens (input.faults .inject) head
  else if 0 < split ∧ split < head.length then do
    let first ← res.prefill (input.faults .headFirst) (head.take split)
    let kept := input.rollCapture .headRollBytes .headRollSnapshot
      (fullHead.take (prefillFrom + split)) first
    kept.prefill (input.faults .headSecond) (head.drop split)
  else
    res.prefill (input.faults .head) head

def wantBatch (prefillFrom suffixLen : Nat) : Bool :=
  !input.env.singleEntry && decide (prefillFrom = 0) && decide (64 < suffixLen) &&
    input.env.prefillBatch

def wantBatchCont (prefillFrom suffixLen : Nat) : Bool :=
  wantBatchContGated input.env.batchCont input.env.batchSuffix input.env.singleEntry
    prefillFrom suffixLen

/-- The batched arms, tried before the per-token floor. -/
def batchArms (fullHead : List Int) (prefillFrom split : Nat) (res : Residency) :
    Except Residency Residency :=
  let suffixLen := fullHead.length - prefillFrom
  if input.wantBatch prefillFrom suffixLen then
    input.coldBatch (fullHead.drop prefillFrom) res
  else if input.wantBatchCont prefillFrom suffixLen then
    input.warmBatch fullHead prefillFrom split res
  else
    .error res

def prefillHead (fullHead : List Int) (prefillFrom : Nat) (res : Residency) :
    Except Residency Residency :=
  if fullHead.drop prefillFrom = [] then
    .ok res
  else
    let split := input.rollSplit (fullHead.length - prefillFrom) res.lastTailGap
    match input.batchArms fullHead prefillFrom split res with
    | .ok next => .ok next
    | .error left => input.perToken fullHead prefillFrom split left

/-- Both sections: an error is the one sent to the client, otherwise the final prompt
and the residency at the first decode step. -/
def prefillPrompt (tokens : List Int) (res : Residency) :
    Except Residency (List Int × Residency) :=
  let reused := input.reuse tokens res
  let fullHead := reused.tokens.dropLast
  match input.prefillHead fullHead (min reused.prefillFrom fullHead.length) reused.res with
  | .ok next => .ok (reused.tokens, next)
  | .error left => .error left

end PrefillInput

end KairosEngine.Daemon
