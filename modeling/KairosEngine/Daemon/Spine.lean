import KairosEngine.Daemon.RecallL5

/-!
# The deciders of `spine.rs`

A decider reads the immutable view of a turn and refines the decision so far; the
pipeline is a fold that stops at a terminal decision.
-/

namespace KairosEngine.Daemon

open KairosEngine.Library

inductive Delivery where
  | systemEcho
  | system
  | sandwich
  | factEcho
  | recite
  deriving DecidableEq, Repr

def Delivery.fromEnv (value : String) : Delivery :=
  if value = "system" then .system
  else if value = "sandwich" then .sandwich
  else if value = "factecho" then .factEcho
  else if value = "recite" then .recite
  else .systemEcho

/-- The memory a decision carries across to the executor. -/
structure EpisodeRef where
  name : String
  text : Text
  scoreMilli : Nat
  deriving DecidableEq

inductive LatentDecision where
  | pass
  | deliver (episode : EpisodeRef) (framing : Delivery)
  | decline (message : Text)
  | route (target : Nat)
  deriving DecidableEq

def LatentDecision.isTerminal : LatentDecision → Bool
  | .decline _ => true
  | .route _ => true
  | .pass => false
  | .deliver _ _ => false

/-- What a decider may read of a turn. -/
structure LatentView where
  rawUser : Text
  globalQ : List Ieee
  l5Query : List Ieee
  registry : List Episode
  nightshift : List Episode
  interrogative : Bool
  qonly : Bool
  tauL5 : Ieee
  tauMargin : Ieee
  attrTau : Ieee
  attrGate : Bool
  framing : Delivery

namespace LatentView

def candidates (view : LatentView) : List Episode := view.registry ++ view.nightshift

end LatentView

/-- The published shape and the tables a decider computes with. -/
structure SpineContext where
  tables : Unicode
  arith : Arithmetic
  geo : RecallGeometry

abbrev Decider := LatentView → LatentDecision → LatentDecision

namespace SpineContext

variable (ctx : SpineContext)

/-- The running best and second of the L5 scan. -/
structure TopTwo where
  best : Option (Ieee × Episode)
  second : Ieee

def scanStep (state : TopTwo) (cos : Ieee) (ep : Episode) : TopTwo :=
  match state.best with
  | some (best, leader) =>
      if cos.le best then
        if state.second.lt cos then { best := some (best, leader), second := cos } else state
      else
        { best := some (cos, ep), second := best }
  | none => { state with best := some (cos, ep) }

def l5Scan (view : LatentView) : TopTwo :=
  view.candidates.foldl
    (fun state ep =>
      if ep.l5key.length = ctx.geo.hd then
        scanStep state (cos512 ctx.arith view.l5Query ep.l5key) ep
      else
        state)
    { best := none, second := .negInf }

/-- `L5Recall::refine`. -/
def l5Recall : Decider := fun view current =>
  match current with
  | .pass =>
      if view.qonly && !view.interrogative then
        .pass
      else if view.l5Query.length ≠ ctx.geo.hd then
        .pass
      else
        let top := ctx.l5Scan view
        match top.best with
        | none => .pass
        | some (bcos, ep) =>
            let margin :=
              if top.second.isFinite then ctx.arith.single.sub bcos top.second else .posInf
            if bcos.lt view.tauL5 then
              .pass
            else if Ieee.lt (.finite 0) view.tauMargin && margin.lt view.tauMargin then
              .pass
            else
              .deliver
                { name := ep.name, text := ep.text, scoreMilli := scoreMilli ctx.arith.single bcos }
                view.framing
  | other => other

/-- `AttrGate::refine`. -/
def attrGate : Decider := fun view current =>
  match current with
  | .deliver ep framing =>
      if !view.attrGate then
        .deliver ep framing
      else
        let absent := ctx.tables.attrAbsentRatio ctx.arith.single view.rawUser ep.text
        if view.attrTau.le absent && ctx.tables.queryHasEntityToken view.rawUser then
          .decline defaultDecline
        else
          .deliver ep framing
  | other => other

/-- `HeadSelector::refine` over a head's score and its reject floor; `None` from a score
is an index panic, which ends the turn. -/
def headSelector (score : LatentView → Episode → Ieee) (floor : Ieee) (framing : Delivery) :
    Decider := fun view current =>
  match current with
  | .pass =>
      let best := view.candidates.foldl
        (fun best ep =>
          let s := score view ep
          if floor.lt s && best.all (fun pair : Ieee × Episode => pair.1.lt s) then some (s, ep)
          else best)
        none
      match best with
      | some (s, ep) =>
          let floored := if s.lt (.finite 0) then .finite 0 else s
          .deliver
            { name := ep.name, text := ep.text, scoreMilli := scoreMilli ctx.arith.single floored }
            framing
      | none => .pass
  | other => other

/-- `WcRecallHead::score`. -/
def wcRecallScore (head : WcHead) (view : LatentView) (ep : Episode) : Ieee :=
  if view.globalQ = [] ∨ ep.gk = [] then
    .negInf
  else
    let np := min (asUsize ep.npos)
      (if 0 < ep.gkNg then ep.gk.length / (ep.gkNg * ctx.geo.hd) else 0)
    (wcScore ctx.arith ctx.geo view.globalQ ep.gk ep.gkNg np head).getD .nan

def buildPipeline (wc : Option WcHead) (framing : Delivery) : List Decider :=
  (match wc with
    | some head => [ctx.headSelector (ctx.wcRecallScore head) head.s0 framing]
    | none => []) ++ [ctx.l5Recall, ctx.attrGate]

end SpineContext

/-- `decide`: the fold of the deciders over the view. -/
def spineDecide (view : LatentView) (deciders : List Decider) : LatentDecision :=
  deciders.foldl
    (fun decision decider => if decision.isTerminal then decision else decider view decision) .pass

end KairosEngine.Daemon
