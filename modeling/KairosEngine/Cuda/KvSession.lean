import KairosEngine.Library.Loop
import KairosEngine.Library.UndoRing

/-!
# The resident gemma4 KV session

`sp_g4_kv` of `cuda_forward.cu` and the calls that append to its cache, drop
from it and commit it.  A row stands for the K and V vectors of one layer at one
position; what the forward pass mints for a step is an input of the step.  A
call is `none` where the source returns -1 through one of its own guards.
-/

namespace KairosEngine.Cuda

open KairosEngine.Library

universe u

/-- The geometry a session is opened with. -/
structure Geometry where
  Pmax : Nat
  NL : Nat
  /-- Layers from `kvfs` on share the cache of an earlier layer. -/
  kvfs : Nat
  /-- Every `period`-th layer attends globally. -/
  period : Nat
  SW : Nat
  ringW : Nat
  Jmax : Nat
  cpuTail : Nat
  deriving DecidableEq, Repr

namespace Geometry

def isGlobal (geometry : Geometry) (layer : Nat) : Bool :=
  layer % geometry.period == geometry.period - 1

/-- Layers that keep their own sliding-window cache in the ring. -/
def swaOwner (geometry : Geometry) (layer : Nat) : Bool :=
  decide (layer < geometry.NL) && decide (layer < geometry.kvfs) && !geometry.isGlobal layer

end Geometry

/-- A geometry in ring mode, as `gemma4_kv_open` leaves it. -/
structure RingGeometry extends Geometry where
  ring_pos : 0 < ringW
  window_le : SW ≤ ringW
  ring_le : ringW ≤ Pmax
  journal_pos : 1 ≤ Jmax

/-- One layer's cache: `dKc`/`dVc` and the undo journal `jK`/`jV`. -/
structure LayerCache (Row : Type u) where
  cache : Nat → Row
  journal : Nat → Row

/-- The mutable part of `sp_g4_kv` that the position bookkeeping reads. -/
structure KvSession (Row : Type u) where
  dposHost : Nat
  commitPos : Nat
  jcur : Nat
  ringWrapped : Bool
  oneShot : Bool
  layers : Nat → LayerCache Row

/-- The rows one step mints, by layer. -/
abbrev Minted (Row : Type u) := Nat → Row

section Calls

variable {Row : Type u} (geometry : Geometry)

/-- The auto-slide at the head of `g4KvStep`. -/
def slideJournal (session : KvSession Row) : KvSession Row :=
  if 0 < geometry.ringW ∧ 0 < geometry.Jmax ∧
      geometry.Jmax ≤ session.dposHost - session.commitPos then
    { session with
      commitPos := session.dposHost - (geometry.Jmax - 1)
      jcur := min session.jcur (geometry.Jmax - 1) }
  else
    session

/-- What one layer of `g4KvStep` does to its own cache. -/
def storeStep (session : KvSession Row) (minted : Minted Row) (layer : Nat)
    (owned : LayerCache Row) : LayerCache Row :=
  if geometry.kvfs ≤ layer then
    owned
  else if 0 < geometry.ringW ∧ geometry.isGlobal layer = false then
    let ws := session.dposHost % geometry.ringW
    let j := session.dposHost - session.commitPos
    { cache := Function.update owned.cache ws (minted layer)
      journal := Function.update owned.journal j (owned.cache ws) }
  else
    { owned with cache := Function.update owned.cache session.dposHost (minted layer) }

/-- The cache writes of `g4KvStep`.  The position advances in its callers. -/
def g4KvStep (minted : Minted Row) (session : KvSession Row) : Option (KvSession Row) :=
  let slid := slideJournal geometry session
  let overflows := decide (0 < geometry.ringW) &&
    decide (geometry.Jmax ≤ slid.dposHost - slid.commitPos)
  if (List.range geometry.NL).any (fun layer => geometry.swaOwner layer && overflows) then
    none
  else
    some { slid with
      layers := updateEach (storeStep geometry slid minted) (List.range geometry.NL) slid.layers }

/-- `dposHost++` and the high-water flag, as every caller of the step does. -/
def advance (session : KvSession Row) : KvSession Row :=
  { session with
    dposHost := session.dposHost + 1
    ringWrapped := session.ringWrapped ||
      (decide (0 < geometry.ringW) && decide (geometry.ringW < session.dposHost + 1)) }

def stepAndAdvance (minted : Minted Row) (session : KvSession Row) : Option (KvSession Row) :=
  (g4KvStep geometry minted session).map (advance geometry)

def gemma4KvPrefill (rows : List (Minted Row)) (session : KvSession Row) :
    Option (KvSession Row) :=
  if rows.length = 0 ∨ geometry.Pmax < session.dposHost + rows.length then
    none
  else
    runEach (stepAndAdvance geometry) rows session

def gemma4KvDecode (rows : List (Minted Row)) (session : KvSession Row) :
    Option (KvSession Row) :=
  if geometry.Pmax ≤ session.dposHost + rows.length then
    none
  else
    runEach (stepAndAdvance geometry) rows session

def gemma4KvDecodeLogits (row : Minted Row) (session : KvSession Row) :
    Option (KvSession Row) :=
  if geometry.Pmax ≤ session.dposHost + 1 then
    none
  else
    stepAndAdvance geometry row session

def gemma4KvDecodeBatch (rows : List (Minted Row)) (session : KvSession Row) :
    Option (KvSession Row) :=
  if rows.length = 0 ∨ geometry.Pmax ≤ session.dposHost + rows.length then
    none
  else
    runEach (stepAndAdvance geometry) rows session

/-- Sink a batch into one layer's cache: globals and full caches at slot = position,
ring owners at slot = position mod `ringW` for the rows that still fit. -/
def storeBatch (session : KvSession Row) (rows : List (Minted Row)) (layer : Nat)
    (owned : LayerCache Row) : LayerCache Row :=
  if geometry.kvfs ≤ layer then
    owned
  else if 0 < geometry.ringW ∧ geometry.isGlobal layer = false then
    let start := rows.length - geometry.ringW
    { owned with
      cache := UndoRing.storeFrom geometry.ringW owned.cache (session.dposHost + start)
        ((rows.drop start).map fun minted => minted layer) }
  else
    { owned with
      cache := fun slot =>
        if session.dposHost ≤ slot then
          match rows[slot - session.dposHost]? with
          | some minted => minted layer
          | none => owned.cache slot
        else
          owned.cache slot }

/-- The environment a batched prefill consults besides the session. -/
structure BatchEnv where
  /-- `SP_PERSIST_KV` starts with `1`. -/
  persist : Bool
  /-- The VRAM guard and every allocation let the batch through. -/
  fits : Bool
  deriving DecidableEq, Repr

def gemma4KvPrefillBatchedFrom (env : BatchEnv) (rows : List (Minted Row)) (P : Nat)
    (session : KvSession Row) : Option (KvSession Row) :=
  if rows.length = 0 ∨ session.dposHost ≠ P ∨ geometry.Pmax < P + rows.length ∨
      (P = 0 ∧ env.persist = true ∧ session.oneShot = false) ∨ 0 < geometry.cpuTail ∨
      env.fits = false then
    none
  else
    -- `commitPos` and the journal are left alone
    some { session with
      dposHost := P + rows.length
      ringWrapped := session.ringWrapped ||
        (decide (0 < geometry.ringW) && decide (geometry.ringW < P + rows.length))
      layers := updateEach (storeBatch geometry session rows) (List.range geometry.NL)
        session.layers }

/-- Put position `p` of one ring layer back from the journal. -/
def restoreSlot (commitPos p layer : Nat) (owned : LayerCache Row) : LayerCache Row :=
  if geometry.isGlobal layer then
    owned
  else
    { owned with
      cache := Function.update owned.cache (p % geometry.ringW)
        (owned.journal (p - commitPos)) }

/-- The restore loop of a rewind, highest position first. -/
def restoreRows (session : KvSession Row) (delta : Nat) : Nat → LayerCache Row :=
  (List.range delta).foldl
    (fun layers d =>
      updateEach (restoreSlot geometry session.commitPos (session.dposHost - 1 - d))
        (List.range (min geometry.kvfs geometry.NL)) layers)
    session.layers

def gemma4KvRewind (delta : Int) (session : KvSession Row) : Option (KvSession Row) :=
  if delta < 0 ∨ (session.dposHost : Int) < delta then
    none
  else if 0 < geometry.ringW then
    if (session.dposHost : Int) - session.commitPos < delta then
      none
    else
      some { session with
        dposHost := session.dposHost - delta.toNat
        layers := restoreRows geometry session delta.toNat }
  else
    some { session with dposHost := session.dposHost - delta.toNat }

def gemma4KvCommit (session : KvSession Row) : KvSession Row :=
  { session with commitPos := session.dposHost, jcur := 0 }

/-- Only the counters are reset; stale rows stay in the buffers. -/
def gemma4KvReset (session : KvSession Row) : KvSession Row :=
  { session with dposHost := 0, commitPos := 0, jcur := 0, ringWrapped := false }

/-- One successful call of the C interface. -/
inductive KvCall (Row : Type u) where
  | prefill (rows : List (Minted Row))
  | decode (rows : List (Minted Row))
  | decodeLogits (row : Minted Row)
  | decodeBatch (rows : List (Minted Row))
  | prefillBatchedFrom (env : BatchEnv) (rows : List (Minted Row)) (P : Nat)
  | commit
  | rewind (delta : Int)

def KvCall.apply : KvCall Row → KvSession Row → Option (KvSession Row)
  | .prefill rows => gemma4KvPrefill geometry rows
  | .decode rows => gemma4KvDecode geometry rows
  | .decodeLogits row => gemma4KvDecodeLogits geometry row
  | .decodeBatch rows => gemma4KvDecodeBatch geometry rows
  | .prefillBatchedFrom env rows P => gemma4KvPrefillBatchedFrom geometry env rows P
  | .commit => fun session => some (gemma4KvCommit session)
  | .rewind delta => gemma4KvRewind geometry delta

end Calls

/-! ## Each ring layer is an undo ring -/

section Refinement

variable {Row : Type u} (geometry : RingGeometry)

/-- One layer of a session seen as a ring with its journal. -/
def KvSession.layerRing (session : KvSession Row) (layer : Nat) : UndoRing Row where
  width := geometry.ringW
  pos := session.dposHost
  base := session.commitPos
  slots := (session.layers layer).cache
  journal := (session.layers layer).journal

variable {geometry} {session next : KvSession Row} {layer : Nat}

theorem Geometry.swaOwner_iff {geometry : Geometry} {layer : Nat} :
    geometry.swaOwner layer = true ↔
      layer < geometry.NL ∧ layer < geometry.kvfs ∧ geometry.isGlobal layer = false := by
  simp [Geometry.swaOwner, and_assoc]

@[simp]
theorem layerRing_width : (session.layerRing geometry layer).width = geometry.ringW := rfl

@[simp]
theorem layerRing_pos : (session.layerRing geometry layer).pos = session.dposHost := rfl

@[simp]
theorem layerRing_base : (session.layerRing geometry layer).base = session.commitPos := rfl

theorem layerRing_slideJournal :
    (slideJournal geometry.toGeometry session).layerRing geometry layer =
      (session.layerRing geometry layer).slide geometry.Jmax := by
  have ring_pos := geometry.ring_pos
  have journal_pos : 0 < geometry.Jmax := geometry.journal_pos
  by_cases full : geometry.Jmax ≤ session.dposHost - session.commitPos
  · rw [slideJournal, if_pos ⟨ring_pos, journal_pos, full⟩, UndoRing.slide]
    rw [layerRing_pos, layerRing_base, if_pos full]
    rfl
  · rw [slideJournal, if_neg (fun slides => full slides.2.2), UndoRing.slide]
    rw [layerRing_pos, layerRing_base, if_neg full]

theorem slideJournal_commit :
    (slideJournal geometry.toGeometry session).commitPos =
      if geometry.Jmax ≤ session.dposHost - session.commitPos then
        session.dposHost - (geometry.Jmax - 1)
      else
        session.commitPos := by
  have ring_pos := geometry.ring_pos
  have journal_pos : 0 < geometry.Jmax := geometry.journal_pos
  simp only [slideJournal, ring_pos, journal_pos, true_and]
  split <;> rfl

/-- After the auto-slide the journal has room for one more entry. -/
theorem slideJournal_room :
    (slideJournal geometry.toGeometry session).dposHost -
      (slideJournal geometry.toGeometry session).commitPos < geometry.Jmax := by
  have ring_pos := geometry.ring_pos
  have journal_pos : 0 < geometry.Jmax := geometry.journal_pos
  unfold slideJournal
  split
  next => simp only; omega
  next room => omega

/-- In ring mode a step never runs into the journal bound. -/
theorem stepAndAdvance_eq (minted : Minted Row) :
    stepAndAdvance geometry.toGeometry minted session =
      let slid := slideJournal geometry.toGeometry session
      some (advance geometry.toGeometry { slid with
        layers := updateEach (storeStep geometry.toGeometry slid minted)
          (List.range geometry.NL) slid.layers }) := by
  have room : (slideJournal geometry.toGeometry session).dposHost -
      (slideJournal geometry.toGeometry session).commitPos < geometry.Jmax := slideJournal_room
  unfold stepAndAdvance g4KvStep
  rw [if_neg]
  · rfl
  · simp only [List.any_eq_true, Bool.and_eq_true, decide_eq_true_eq]
    rintro ⟨_, _, _, _, full⟩
    omega

theorem layerRing_stepAndAdvance {minted : Minted Row}
    (stepped : stepAndAdvance geometry.toGeometry minted session = some next)
    (owner : geometry.swaOwner layer = true) :
    next.layerRing geometry layer =
      ((session.layerRing geometry layer).slide geometry.Jmax).push (minted layer) := by
  obtain ⟨inside, owned, windowed⟩ := Geometry.swaOwner_iff.mp owner
  rw [stepAndAdvance_eq, Option.some.injEq] at stepped
  subst stepped
  rw [← layerRing_slideJournal]
  simp only [KvSession.layerRing, advance, UndoRing.push]
  rw [updateEach_of_mem _ _ _ _ List.nodup_range (List.mem_range.mpr inside)]
  simp only [storeStep, geometry.ring_pos, windowed, not_le.mpr owned, if_false, true_and,
    if_true]

theorem stepAndAdvance_counters {minted : Minted Row}
    (stepped : stepAndAdvance geometry.toGeometry minted session = some next) :
    next.dposHost = session.dposHost + 1 ∧
      next.commitPos = (slideJournal geometry.toGeometry session).commitPos := by
  rw [stepAndAdvance_eq, Option.some.injEq] at stepped
  subst stepped
  refine ⟨?_, rfl⟩
  simp only [advance, slideJournal]
  split <;> rfl

theorem layerRing_batched {env : BatchEnv} {rows : List (Minted Row)} {P : Nat}
    (batched : gemma4KvPrefillBatchedFrom geometry.toGeometry env rows P session = some next)
    (owner : geometry.swaOwner layer = true) :
    next.layerRing geometry layer =
      (session.layerRing geometry layer).sink (rows.map fun minted => minted layer) := by
  obtain ⟨inside, owned, windowed⟩ := Geometry.swaOwner_iff.mp owner
  unfold gemma4KvPrefillBatchedFrom at batched
  split at batched
  next => simp at batched
  next accepted =>
    have standing : session.dposHost = P := by
      by_contra moved
      exact accepted (Or.inr (Or.inl moved))
    cases batched
    simp only [KvSession.layerRing, UndoRing.sink, List.length_map, standing]
    rw [updateEach_of_mem _ _ _ _ List.nodup_range (List.mem_range.mpr inside)]
    simp only [storeBatch, geometry.ring_pos, windowed, not_le.mpr owned, if_false, true_and,
      if_true, standing, List.map_drop]

/-- The restore loop pops the layer's ring once per position. -/
theorem restoreRows_layer (session : KvSession Row) (delta : Nat)
    (owner : geometry.swaOwner layer = true) :
    (restoreRows geometry.toGeometry session delta layer).cache =
        ((session.layerRing geometry layer).popN delta).slots ∧
      (restoreRows geometry.toGeometry session delta layer).journal =
        (session.layers layer).journal := by
  obtain ⟨inside, owned, windowed⟩ := Geometry.swaOwner_iff.mp owner
  induction delta with
  | zero => exact ⟨rfl, rfl⟩
  | succ delta inductionHypothesis =>
      simp only [restoreRows] at inductionHypothesis ⊢
      rw [List.range_succ, List.foldl_append, List.foldl_cons, List.foldl_nil,
        updateEach_of_mem _ _ _ _ List.nodup_range (List.mem_range.mpr (by omega)),
        UndoRing.popN_succ_eq]
      simp only [restoreSlot, windowed, Bool.false_eq_true, if_false]
      refine ⟨?_, inductionHypothesis.2⟩
      simp only [UndoRing.pop, UndoRing.popN_pos, UndoRing.popN_base, UndoRing.popN_journal,
        UndoRing.popN_width, inductionHypothesis.1, inductionHypothesis.2]
      rw [show session.dposHost - 1 - delta =
        (session.layerRing geometry layer).pos - delta - 1 by simp only [layerRing_pos]; omega]
      rfl

theorem layerRing_rewind {delta : Int}
    (rewound : gemma4KvRewind geometry.toGeometry delta session = some next)
    (owner : geometry.swaOwner layer = true) :
    next.layerRing geometry layer = (session.layerRing geometry layer).popN delta.toNat := by
  have ring_pos := geometry.ring_pos
  unfold gemma4KvRewind at rewound
  simp only [ring_pos, if_true] at rewound
  split at rewound
  next => simp at rewound
  next =>
    split at rewound
    next => simp at rewound
    next =>
      cases rewound
      obtain ⟨slots, journal⟩ := restoreRows_layer session delta.toNat owner
      apply UndoRing.ext
      · simp
      · simp
      · simp
      · exact slots
      · exact journal.trans (UndoRing.popN_journal _ (session.layerRing geometry layer)).symm

/-- A rewind that succeeds stays between the commit baseline and the present. -/
theorem rewind_bounds {delta : Int}
    (rewound : gemma4KvRewind geometry.toGeometry delta session = some next) :
    0 ≤ delta ∧ delta.toNat ≤ session.dposHost - session.commitPos ∧
      next.dposHost = session.dposHost - delta.toNat ∧
      next.commitPos = session.commitPos := by
  have ring_pos := geometry.ring_pos
  unfold gemma4KvRewind at rewound
  simp only [ring_pos, if_true] at rewound
  split at rewound
  next => simp at rewound
  next inRange =>
    split at rewound
    next => simp at rewound
    next uncommitted =>
      cases rewound
      exact ⟨by omega, by omega, rfl, rfl⟩

end Refinement

end KairosEngine.Cuda
