import Mathlib.Data.List.Basic
import KairosEngine.Library.Attempt

/-!
# The resident cache and the process state about it

`routes.rs` keeps one resident KV handle and several statics that describe it.
Here the cache is the list of its entries, and a verb of
`cuda_kvdecode_dispatch` does what it says or fails.  A `Verdict` says how one
call of a verb goes: a refused verb changes nothing, a spoiled one stops midway
and may leave any entries.  `reset` and `set_oneshot` fail on a null handle only.
-/

namespace KairosEngine.Daemon

open KairosEngine.Library

/-- One position of the resident cache. -/
inductive Entry where
  | token (id : Int)
  | frame (label : Nat)
  deriving DecidableEq, Repr

/-- The cache that results from prefilling these tokens from position 0. -/
abbrev minted (toks : List Int) : List Entry := toks.map Entry.token

theorem minted_injective {left right : List Int} (same : minted left = minted right) :
    left = right :=
  List.map_injective_iff.mpr (fun _ _ equal => Entry.token.inj equal) same

/-- A host copy of the cache, the tokens it was minted from and the model's tag. -/
structure PrefixSnap where
  toks : List Int
  blob : List Entry
  tag : String
  deriving DecidableEq, Repr

/-- The resident handle with the process statics that describe it. -/
structure Residency where
  entries : List Entry
  oneShot : Bool
  /-- `KV_COMMITTED` and `KV_COMMITTED_TAG`. -/
  committed : List Int
  committedTag : String
  /-- `PREFIX_SNAP`, the base slot. -/
  prefixSnap : Option PrefixSnap
  /-- `ROLL_SNAP`, the rolling slot. -/
  rollSnap : Option PrefixSnap
  lastTailGap : Nat
  /-- `MODEL_TAG`; `none` while the daemon has not published it. -/
  modelTag : Option String
  deriving DecidableEq, Repr

/-- How one call of a verb goes. -/
inductive Verdict where
  | ok
  | refuse
  | spoil (left : List Entry)
  deriving DecidableEq, Repr

/-- What a failed call leaves of these entries. -/
def Verdict.remains (before : List Entry) : Verdict → List Entry
  | .spoil left => left
  | .ok | .refuse => before

namespace Residency

abbrev position (res : Residency) : Nat := res.entries.length

def withEntries (res : Residency) (entries : List Entry) : Residency :=
  { res with entries }

@[simp]
theorem withEntries_entries (res : Residency) (entries : List Entry) :
    (res.withEntries entries).entries = entries := rfl

@[simp]
theorem withEntries_oneShot (res : Residency) (entries : List Entry) :
    (res.withEntries entries).oneShot = res.oneShot := rfl

@[simp]
theorem withEntries_withEntries (res : Residency) (first second : List Entry) :
    (res.withEntries first).withEntries second = res.withEntries second := rfl

theorem withEntries_self (res : Residency) : res.withEntries res.entries = res := rfl

/-- What a failed verb leaves in the cache. -/
def afterFailure (res : Residency) : Verdict → Residency
  | .spoil left => res.withEntries left
  | .ok | .refuse => res

def reset (res : Residency) : Residency := res.withEntries []

def setOneshot (on : Bool) (res : Residency) : Residency := { res with oneShot := on }

def rewind (verdict : Verdict) (drop : Nat) (res : Residency) : Except Residency Residency :=
  if verdict = .ok ∧ drop ≤ res.position then
    .ok (res.withEntries (res.entries.take (res.position - drop)))
  else
    .error res

/-- Append one entry per token, the shape of `prefill` and `inject_tokens`. -/
def append (verdict : Verdict) (toks : List Int) (res : Residency) :
    Except Residency Residency :=
  match verdict with
  | .ok => .ok (res.withEntries (res.entries ++ minted toks))
  | failure => .error (res.afterFailure failure)

def prefill (verdict : Verdict) (toks : List Int) (res : Residency) :
    Except Residency Residency :=
  res.append verdict toks

def injectTokens (verdict : Verdict) (toks : List Int) (res : Residency) :
    Except Residency Residency :=
  res.append verdict toks

/-- The cold batched prefill; `enginePersist` is the engine's own reading of
`SP_PERSIST_KV`. -/
def prefillBatched (enginePersist : Bool) (verdict : Verdict) (toks : List Int)
    (res : Residency) : Except Residency Residency :=
  if 0 < res.position ∨ (enginePersist = true ∧ res.oneShot = false) then
    .error res
  else
    res.append verdict toks

/-- The batched prefill of a suffix that must land exactly at position `P`. -/
def prefillBatchedFrom (enginePersist : Bool) (verdict : Verdict) (toks : List Int) (P : Nat)
    (res : Residency) : Except Residency Residency :=
  if res.position ≠ P ∨ (P = 0 ∧ enginePersist = true ∧ res.oneShot = false) then
    .error res
  else
    res.append verdict toks

def prefixBytes (verdict : Verdict) (res : Residency) : Except Residency Unit :=
  if verdict = .ok then .ok () else .error res

def snapshotPrefix (verdict : Verdict) (P : Nat) (res : Residency) :
    Except Residency (List Entry) :=
  if verdict = .ok ∧ res.position = P then .ok res.entries else .error res

def restorePrefix (verdict : Verdict) (blob : List Entry) (res : Residency) :
    Except Residency Residency :=
  match verdict with
  | .ok => .ok (res.withEntries blob)
  | failure => .error (res.afterFailure failure)

/-! ## What the statics promise -/

/-- A slot minted by the live model holds the state of its own tokens. -/
def SlotTruthful (modelTag : Option String) (slot : Option PrefixSnap) : Prop :=
  ∀ snap, slot = some snap → modelTag = some snap.tag → snap.blob = minted snap.toks

/-- One-shot is off and both slots hold the state of their own tokens. -/
structure Calm (res : Residency) : Prop where
  oneShot_off : res.oneShot = false
  base_truthful : SlotTruthful res.modelTag res.prefixSnap
  roll_truthful : SlotTruthful res.modelTag res.rollSnap

/-- `KV_COMMITTED` may be trusted: it was committed under the live model's tag. -/
def tagOk (res : Residency) : Bool :=
  match res.modelTag with
  | some live => live == res.committedTag
  | none => false

/-- A trusted list of the cache's length is the list of the cache's tokens. -/
def CommittedTruthful (res : Residency) : Prop :=
  res.tagOk = true → res.position = res.committed.length → res.entries = minted res.committed

@[simp]
theorem calm_withEntries (res : Residency) (entries : List Entry) :
    (res.withEntries entries).Calm ↔ res.Calm :=
  ⟨fun calm => ⟨calm.1, calm.2, calm.3⟩, fun calm => ⟨calm.1, calm.2, calm.3⟩⟩

@[simp]
theorem calm_reset (res : Residency) : res.reset.Calm ↔ res.Calm := calm_withEntries res []

@[simp]
theorem reset_entries (res : Residency) : res.reset.entries = [] := rfl

@[simp]
theorem afterFailure_calm (res : Residency) (verdict : Verdict) :
    (res.afterFailure verdict).Calm ↔ res.Calm := by
  cases verdict with
  | ok => rfl
  | refuse => rfl
  | spoil left => exact calm_withEntries res left

/-! ## One rule for each verb -/

section Rules

variable {res : Residency} {verdict : Verdict}

/-- A verb that keeps everything but the entries keeps the residency calm. -/
theorem append_ends (toks : List Int) :
    Ends (res.append verdict toks)
      (fun next => next = res.withEntries (res.entries ++ minted toks))
      (fun next => ∃ left, next = res.withEntries left) := by
  cases verdict with
  | ok => exact rfl
  | refuse => exact ⟨res.entries, rfl⟩
  | spoil left => exact ⟨left, rfl⟩

theorem prefillBatched_ends (enginePersist : Bool) (toks : List Int) :
    Ends (res.prefillBatched enginePersist verdict toks)
      (fun next => next = res.withEntries (minted toks))
      (fun next => ∃ left, next = res.withEntries left) := by
  unfold prefillBatched
  split
  next => exact ⟨res.entries, rfl⟩
  next accepted =>
    have cold : res.entries = [] := by
      have notWarm : ¬ 0 < res.position := fun warm => accepted (Or.inl warm)
      exact List.length_eq_zero_iff.mp (Nat.eq_zero_of_not_pos notWarm)
    simpa only [cold, List.nil_append] using @append_ends res verdict toks

theorem prefillBatchedFrom_ends (enginePersist : Bool) (toks : List Int) (P : Nat) :
    Ends (res.prefillBatchedFrom enginePersist verdict toks P)
      (fun next => next = res.withEntries (res.entries ++ minted toks))
      (fun next => ∃ left, next = res.withEntries left) := by
  unfold prefillBatchedFrom
  split
  next => exact ⟨res.entries, rfl⟩
  next => exact append_ends toks

theorem restorePrefix_ends (blob : List Entry) :
    Ends (res.restorePrefix verdict blob)
      (fun next => next = res.withEntries blob)
      (fun next => ∃ left, next = res.withEntries left) := by
  cases verdict with
  | ok => exact rfl
  | refuse => exact ⟨res.entries, rfl⟩
  | spoil left => exact ⟨left, rfl⟩

theorem prefixBytes_ends :
    Ends (res.prefixBytes verdict) (fun _ => True) (fun next => next = res) := by
  unfold prefixBytes
  split
  next => trivial
  next => rfl

theorem snapshotPrefix_ends (P : Nat) :
    Ends (res.snapshotPrefix verdict P)
      (fun blob => blob = res.entries ∧ res.position = P) (fun next => next = res) := by
  unfold snapshotPrefix
  split
  next taken => exact ⟨rfl, taken.2⟩
  next => rfl

theorem rewind_ends (drop : Nat) :
    Ends (res.rewind verdict drop)
      (fun next => next = res.withEntries (res.entries.take (res.position - drop)))
      (fun next => next = res) := by
  unfold rewind
  split
  next => rfl
  next => rfl

end Rules

end Residency

end KairosEngine.Daemon
