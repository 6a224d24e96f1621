import KairosEngine.Daemon.GlobalK
import KairosEngine.Daemon.Lexical

/-!
# The L5 recall lane of `routes.rs`: selection and dispatch

What the lane decides from the query key, the candidate episodes and its flags.  The
side passes that may move the pick and the delivery itself act on the resident cache
and are in `Daemon/RecallLanes`.
-/

namespace KairosEngine.Daemon

open KairosEngine.Library

/-- `cos512`. -/
def cos512 (arith : Arithmetic) (left right : List Ieee) : Ieee :=
  if left.length ≠ right.length ∨ left = [] then
    .negInf
  else
    let den := arith.double.mul (arith.sqrt (dot arith.double left left))
      (arith.sqrt (dot arith.double right right))
    if den.le (.finite 0) then .finite 0
    else arith.single.convert (arith.double.div (dot arith.double left right) den)

/-- `l5_query_embed`: the mean query head of the fact layer, normalized. -/
def l5QueryEmbed (arith : Arithmetic) (geo : RecallGeometry) (q : List Ieee) : List Ieee :=
  let qd := geo.gNh * geo.hd
  if q.length / qd ≤ geo.l5Layer then
    []
  else
    let base := geo.l5Layer * qd
    let inv := arith.double.div (.finite 1) (.finite geo.gNh)
    let mean := (List.range geo.hd).map fun d =>
      let sum := (List.range geo.gNh).foldl
        (fun sum head => arith.double.add sum (q.getD (base + head * geo.hd + d) .nan)) (.finite 0)
      arith.double.mul sum inv
    let den := arith.sqrt (dot arith.double mean mean)
    if den.le (.finite 0) then []
    else mean.map fun x => arith.single.convert (arith.double.div x den)

theorem l5QueryEmbed_length (arith : Arithmetic) (geo : RecallGeometry) (q : List Ieee) :
    l5QueryEmbed arith geo q = [] ∨ (l5QueryEmbed arith geo q).length = geo.hd := by
  unfold l5QueryEmbed
  simp only
  split
  next => exact Or.inl rfl
  next =>
    split
    next => exact Or.inl rfl
    next => exact Or.inr (by simp)

/-- The flags the lane reads, with their defaults filled in. -/
structure L5Flags where
  /-- `SP_RECALL_QONLY`. -/
  qonly : Bool
  /-- `SP_RECALL_L5_TAU`, else 0.30. -/
  tauL5 : Ieee
  /-- `SP_RECALL_L5_MARGIN`, else 0. -/
  tauMargin : Ieee
  /-- `SP_RECALL_L5_CANON` and `SP_RECALL_L5_RERANK`, else 0. -/
  canonEps : Ieee
  rerankEps : Ieee
  /-- `SP_RECALL_ATTR_GATE` and `SP_RECALL_ATTR_TAU`, else 0.5. -/
  attrGate : Bool
  attrTau : Ieee
  /-- `SP_MEM_POLICY`, `SP_RECALL_STRICT`, `SP_RECALL_AUDIT`. -/
  memPolicy : Bool
  strict : Bool
  audit : Bool
  /-- `SP_RECALL_L5_PROMPT`. -/
  prompt : Option String
  deriving DecidableEq

/-- A scored candidate. -/
structure Scored where
  cos : Ieee
  name : String
  text : Text
  policy : Option MemPolicy
  deriving DecidableEq

/-- The current pick: `bcos`, `bname`, `btext`. -/
structure Pick where
  cos : Ieee
  name : String
  text : Text
  deriving DecidableEq

/-- The candidates the scan scores: those with a key of the model's width that are
active, or all of them under audit. -/
def l5Candidates (geo : RecallGeometry) (audit : Bool) (registry nightshift : List Episode) :
    List Episode :=
  (registry ++ nightshift).filter fun ep =>
    decide (ep.l5key.length = geo.hd) && (decide (ep.lifecycle = 0) || audit)

def scoreEpisode (arith : Arithmetic) (query : List Ieee) (ep : Episode) : Scored :=
  { cos := cos512 arith query ep.l5key, name := ep.name, text := ep.text, policy := ep.policy }

/-- `sort_by` with `partial_cmp` of the second against the first. -/
def sortScored (scored : List Scored) : List Scored :=
  scored.mergeSort fun left right => !left.cos.lt right.cos

def l5Scored (arith : Arithmetic) (geo : RecallGeometry) (audit : Bool) (query : List Ieee)
    (registry nightshift : List Episode) : List Scored :=
  sortScored ((l5Candidates geo audit registry nightshift).map (scoreEpisode arith query))

def Scored.pick (entry : Scored) : Pick :=
  { cos := entry.cos, name := entry.name, text := entry.text }

def topPick (scored : List Scored) : Pick :=
  (scored.head?.map Scored.pick).getD { cos := .negInf, name := "", text := [] }

/-- The gap between the best two; a pool of one has no second. -/
def l5Margin (format : Format) (scored : List Scored) : Ieee :=
  let second := (scored[1]?.map Scored.cos).getD .negInf
  if second.isFinite then format.sub (topPick scored).cos second else .posInf

/-- The policy of the selected entry, found by its name. -/
def l5Policy (memPolicy : Bool) (scored : List Scored) (name : String) : Option MemPolicy :=
  if memPolicy then (scored.find? fun entry => entry.name = name).bind Scored.policy else none

def deliveryMode (flags : L5Flags) : Option MemPolicy → String
  | some policy =>
      if policy.delivery = "attr-gate-strict" then "recite" else policy.delivery
  | none => flags.prompt.getD "plain"

def policyAttrGate : Option MemPolicy → Bool
  | some policy =>
      decide (policy.delivery = "attr-gate-strict") ||
        policy.declineWhen.any fun reason =>
          decide (reason = "attribute-absent") || decide (reason = "zero-inference")
  | none => false

def defaultDecline : Text :=
  "I have a record for that entity, but it does not include that specific detail.".toList

/-- How the lane ends for a pick. -/
inductive L5Verdict where
  | belowTau
  | decline (message : Text)
  | marginSkip
  | deliver (mode : String)
  deriving DecidableEq

/-- The query asks for an attribute that the picked fact does not state. -/
def forceDecline (tables : Unicode) (format : Format) (flags : L5Flags)
    (policy : Option MemPolicy) (user fact : Text) : Bool :=
  let attrGate := policyAttrGate policy || flags.attrGate
  let absent := if attrGate then tables.attrAbsentRatio format user fact else .finite 0
  let policySecret := policy.any fun policy => decide (policy.delivery = "attr-gate-strict")
  attrGate && flags.attrTau.le absent && (policySecret || tables.queryHasEntityToken user)

/-- The dispatch behind the threshold: the attribute gate first, then the margin gate. -/
def l5Dispatch (tables : Unicode) (format : Format) (flags : L5Flags) (user : Text)
    (scored : List Scored) (margin : Ieee) (pick : Pick) : L5Verdict :=
  if flags.tauL5.le pick.cos && decide (pick.text ≠ []) then
    let policy := l5Policy flags.memPolicy scored pick.name
    if forceDecline tables format flags policy user pick.text then
      .decline ((policy.map MemPolicy.declineMessage).getD defaultDecline)
    else if Ieee.lt (.finite 0) flags.tauMargin && margin.lt flags.tauMargin then
      .marginSkip
    else
      .deliver (deliveryMode flags policy)
  else
    .belowTau

/-- The trimmed last user message, where there is one that is not blank. -/
def laneUser (tables : Unicode) (rawUser : Option Text) : Option Text :=
  (rawUser.map tables.trim).filter fun user => decide (user ≠ [])

/-- The query key the lane reads; empty when it skips statements or the read fails. -/
def laneQuery (tables : Unicode) (arith : Arithmetic) (geo : RecallGeometry) (flags : L5Flags)
    (user : Text) (read : Option (List Ieee)) : List Ieee :=
  if flags.qonly && !tables.isInterrogative user then []
  else (read.map (l5QueryEmbed arith geo)).getD []

def scoreMilli (format : Format) (score : Ieee) : Nat := (format.mul score (.finite 1000)).toU32

end KairosEngine.Daemon
