import KairosEngine.Daemon.RecallLanes
import KairosEngine.Daemon.Spine

/-!
# Every recall lane of a turn

The spine, or the inline lanes in their order: INT2, W_c, Jaccard, L5.  What a turn
delivers, declines from or replays is one of the episodes that its lanes scan.
-/

namespace KairosEngine.Daemon

open KairosEngine.Library

/-- The name and text of the episode a turn recalls. -/
abbrev Recalled := String × Text

def Episode.recalled (ep : Episode) : Recalled := (ep.name, ep.text)

/-! ## INT2 -/

/-- The ablation gate, with what the sidecars and the probes of a candidate give. -/
structure Int2Lane where
  /-- `SP_INT2_W`, else 20. -/
  window : Nat
  /-- `SP_G4_KV_JMAX`, else 64. -/
  jmax : Int
  /-- `SP_INT2_TAU`, else -8. -/
  tau : Ieee
  /-- The ids of `ep.secret` and the rows of `ep.tok`. -/
  secretIds : Episode → List Int
  epTok : Episode → List Int
  /-- None where the replay fails or no token can be forced. -/
  collapse : Episode → Option Ieee
  replays : Bool

namespace Int2Lane

variable (lane : Int2Lane)

def probed (ep : Episode) : Bool :=
  decide (0 < ep.npos) && decide (ep.gk ≠ []) && decide (lane.secretIds ep ≠ []) &&
    decide (lane.epTok ep ≠ []) && decide (ep.npos + (lane.secretIds ep).length ≤ lane.jmax)

/-- The registry and the most recent live episodes, those that can be probed. -/
def candidates (registry nightshift : List Episode) : List Episode :=
  (registry ++ nightshift.drop (nightshift.length - lane.window)).filter lane.probed

/-- The strictly smallest collapse. -/
def best (registry nightshift : List Episode) : Option (Ieee × Episode) :=
  (lane.candidates registry nightshift).foldl
    (fun best ep =>
      match lane.collapse ep with
      | some collapse =>
          if best.all fun pair : Ieee × Episode => collapse.lt pair.1 then some (collapse, ep)
          else best
      | none => best)
    none

def recalled (registry nightshift : List Episode) : Option Recalled :=
  (lane.best registry nightshift).bind fun pair =>
    if pair.1.lt lane.tau && lane.replays then some pair.2.recalled else none

end Int2Lane

/-! ## W_c -/

/-- The learned head; a replay, an injection or a text delivery may fail. -/
structure WcLane where
  head : WcHead
  globalQ : List Ieee
  delivers : Bool

namespace WcLane

variable (lane : WcLane) (arith : Arithmetic) (geo : RecallGeometry)

/-- `None` from a score is an index panic, which ends the turn. -/
def score (ep : Episode) : Ieee :=
  let np := min (asUsize ep.npos)
    (if 0 < ep.gkNg then ep.gk.length / (ep.gkNg * geo.hd) else 0)
  (wcScore arith geo lane.globalQ ep.gk ep.gkNg np lane.head).getD .nan

/-- The strictly best score. -/
def best (candidates : List Episode) : Option (Ieee × Episode) :=
  candidates.foldl
    (fun best ep =>
      let score := lane.score arith geo ep
      if ((best.map Prod.fst).getD .negInf).lt score then some (score, ep) else best)
    none

def recalled (candidates : List Episode) : Option Recalled :=
  (lane.best arith geo candidates).bind fun pair =>
    if lane.head.s0.lt pair.1 && lane.delivers then some pair.2.recalled else none

end WcLane

/-! ## Jaccard and L5 -/

namespace RecallTurn

variable (turn : RecallTurn)

def jaccardRecalled : Option Recalled :=
  turn.jaccardOffer.bind fun offer =>
    if turn.jaccardPrefill = .ok then some (offer.pick.name, offer.pick.text) else none

def l5Recalled : Option Recalled :=
  turn.l5Open.bind fun (flags, pool) =>
    let pick := turn.rerankPick flags pool
    match turn.l5Verdict flags pool with
    | .belowTau => none
    | .marginSkip => none
    | .decline _ => some (pick.name, pick.text)
    | .deliver mode =>
        if (turn.l5Ids flags pool mode).isSome ∧ turn.deliverPrefill = .ok then
          some (pick.name, pick.text)
        else none

end RecallTurn

/-! ## The turn -/

/-- A spine turn; its executor may fail. -/
structure SpineLane where
  view : LatentView
  wc : Option WcHead
  executes : Bool

namespace SpineLane

variable (lane : SpineLane)

def deciders (ctx : SpineContext) : List Decider :=
  (match lane.wc with
    | some head => [ctx.headSelector (ctx.wcRecallScore head) head.s0 lane.view.framing]
    | none => []) ++ [ctx.l5Recall]

/-- The view over the episodes of the process. -/
def viewOf (registry nightshift : List Episode) : LatentView :=
  { lane.view with registry, nightshift }

/-- The episodes that the deciders of the lane read. -/
def scans (ctx : SpineContext) (registry nightshift : List Episode) : List Episode :=
  if lane.wc.isSome then registry ++ nightshift
  else (registry ++ nightshift).filter fun ep => decide (ep.l5key.length = ctx.geo.hd)

/-- The episode delivered, or the one the attribute gate declines from. -/
def recalled (ctx : SpineContext) (registry nightshift : List Episode) : Option Recalled :=
  let view := lane.viewOf registry nightshift
  match spineDecide view (ctx.buildPipeline lane.wc view.framing) with
  | .deliver ref _ => if lane.executes then some (ref.name, ref.text) else none
  | .decline _ =>
      match spineDecide view (lane.deciders ctx) with
      | .deliver ref _ => some (ref.name, ref.text)
      | .pass => none
      | .decline _ => none
      | .route _ => none
  | .pass => none
  | .route _ => none

end SpineLane

/-- A turn with auto-recall: `base` is what Jaccard and L5 read, its episodes aside. -/
structure RecallRequest where
  base : RecallTurn
  spine : Option SpineLane
  int2 : Option Int2Lane
  wc : Option WcLane
  audit_unset : ∀ flags, base.l5 = some flags → flags.audit = false

namespace RecallRequest

variable (request : RecallRequest) (registry nightshift : List Episode)

def turn : RecallTurn := { request.base with registry, nightshift }

def context : SpineContext := ⟨request.base.tables, request.base.arith, request.base.geo⟩

/-- What the turn recalls.  INT2 settles the inline lanes where it runs. -/
def recalled : Option Recalled :=
  match request.spine with
  | some lane => lane.recalled request.context registry nightshift
  | none =>
      match request.int2 with
      | some lane => lane.recalled registry nightshift
      | none =>
          (request.wc.bind fun lane =>
            lane.recalled request.base.arith request.base.geo (registry ++ nightshift)).or
          (((request.turn registry nightshift).jaccardRecalled).or
            (request.turn registry nightshift).l5Recalled)

/-- The episodes scanned by the enabled lanes that do not look at the lifecycle. -/
def unfiltered : List Episode :=
  match request.spine with
  | some lane => lane.scans request.context registry nightshift
  | none =>
      match request.int2 with
      | some lane => lane.candidates registry nightshift
      | none =>
          if request.wc.isSome || request.base.jaccard.isSome then registry ++ nightshift else []

end RecallRequest

/-! ## A recalled episode was scanned -/

/-- The recalled name and text are those of one of these episodes. -/
def ComesFrom (recalled : Recalled) (episodes : List Episode) : Prop :=
  ∃ ep ∈ episodes, ep.recalled = recalled

theorem ComesFrom.mono {recalled : Recalled} {episodes larger : List Episode}
    (subset : episodes ⊆ larger) (found : ComesFrom recalled episodes) :
    ComesFrom recalled larger := by
  obtain ⟨ep, member, same⟩ := found
  exact ⟨ep, subset member, same⟩

theorem Int2Lane.best_mem {lane : Int2Lane} {registry nightshift : List Episode}
    {pair : Ieee × Episode} (found : lane.best registry nightshift = some pair) :
    pair.2 ∈ lane.candidates registry nightshift := by
  revert pair
  apply List.foldlRecOn (motive := fun best : Option (Ieee × Episode) =>
    ∀ {pair}, best = some pair → pair.2 ∈ lane.candidates registry nightshift)
  · intro pair none
    cases none
  · intro best inductionHypothesis ep member pair step
    split at step
    next collapse _ =>
      split at step
      next =>
        cases step
        exact member
      next => exact inductionHypothesis step
    next => exact inductionHypothesis step

theorem Int2Lane.recalled_scanned {lane : Int2Lane} {registry nightshift : List Episode}
    {recalled : Recalled} (accepts : lane.recalled registry nightshift = some recalled) :
    ComesFrom recalled (lane.candidates registry nightshift) := by
  obtain ⟨pair, found, fires⟩ := Option.bind_eq_some_iff.mp accepts
  split at fires
  next =>
    cases fires
    exact ⟨pair.2, best_mem found, rfl⟩
  next => cases fires

theorem WcLane.best_mem {lane : WcLane} {arith : Arithmetic} {geo : RecallGeometry}
    {candidates : List Episode} {pair : Ieee × Episode}
    (found : lane.best arith geo candidates = some pair) : pair.2 ∈ candidates := by
  revert pair
  apply List.foldlRecOn (motive := fun best : Option (Ieee × Episode) =>
    ∀ {pair}, best = some pair → pair.2 ∈ candidates)
  · intro pair none
    cases none
  · intro best inductionHypothesis ep member pair step
    simp only at step
    split at step
    next =>
      cases step
      exact member
    next => exact inductionHypothesis step

theorem WcLane.recalled_scanned {lane : WcLane} {arith : Arithmetic} {geo : RecallGeometry}
    {candidates : List Episode} {recalled : Recalled}
    (fires : lane.recalled arith geo candidates = some recalled) :
    ComesFrom recalled candidates := by
  obtain ⟨pair, found, beats⟩ := Option.bind_eq_some_iff.mp fires
  split at beats
  next =>
    cases beats
    exact ⟨pair.2, best_mem found, rfl⟩
  next => cases beats

namespace RecallTurn

variable {turn : RecallTurn}

theorem jaccardPick_scanned (user : Text) (named : (turn.jaccardPick user).text ≠ []) :
    ComesFrom ((turn.jaccardPick user).name, (turn.jaccardPick user).text)
      (turn.registry ++ turn.nightshift) := by
  revert named
  unfold jaccardPick
  apply List.foldlRecOn (motive := fun best : Pick => best.text ≠ [] →
    ComesFrom (best.name, best.text) (turn.registry ++ turn.nightshift))
  · intro named
    exact absurd rfl named
  · intro best inductionHypothesis ep member
    simp only
    split
    next => exact fun _ => ⟨ep, member, rfl⟩
    next => exact inductionHypothesis

theorem jaccardRecalled_scanned {recalled : Recalled}
    (offers : turn.jaccardRecalled = some recalled) :
    turn.jaccard.isSome = true ∧ ComesFrom recalled (turn.registry ++ turn.nightshift) := by
  obtain ⟨offer, offered, prefilled⟩ := Option.bind_eq_some_iff.mp offers
  unfold jaccardOffer at offered
  simp only [Option.bind_eq_bind, Option.bind_eq_some_iff, Option.pure_def] at offered
  obtain ⟨tau, enabled, user, _, passes⟩ := offered
  split at passes
  next above =>
    obtain ⟨ids, _, whole⟩ := Option.bind_eq_some_iff.mp passes
    cases whole
    split at prefilled
    next =>
      cases prefilled
      rw [Bool.and_eq_true, decide_eq_true_eq] at above
      exact ⟨by rw [enabled]; rfl, jaccardPick_scanned user above.2⟩
    next => cases prefilled
  next => cases passes

/-- A pick of the L5 lane is a scored candidate, or the blank one of an empty pool. -/
def Picks (pool : L5Pool) (pick : Pick) : Prop :=
  pick.text = [] ∨ ∃ entry ∈ pool.scored, pick = entry.pick

theorem topPick_picks (pool : L5Pool) : Picks pool (topPick pool.scored) := by
  unfold topPick
  cases best : pool.scored.head? with
  | none => exact Or.inl rfl
  | some entry => exact Or.inr ⟨entry, List.mem_of_head? best, rfl⟩

theorem getElem_picks (pool : L5Pool) (index : Nat) {fallback : Pick} (falls : Picks pool fallback) :
    Picks pool (((pool.scored[index]?).map Scored.pick).getD fallback) := by
  cases found : pool.scored[index]? with
  | none => exact falls
  | some entry => exact Or.inr ⟨entry, List.mem_of_getElem? found, rfl⟩

theorem canonPick_picks (flags : L5Flags) (pool : L5Pool) : Picks pool (turn.canonPick flags pool) := by
  have top := topPick_picks pool
  unfold canonPick
  simp only
  split
  next =>
    split
    next => exact getElem_picks pool _ top
    next => exact top
  next => exact top

theorem rerankPick_picks (flags : L5Flags) (pool : L5Pool) :
    Picks pool (turn.rerankPick flags pool) := by
  have canon := @canonPick_picks turn flags pool
  unfold rerankPick
  simp only
  split
  next =>
    split
    next =>
      split
      next => exact canon
      next => exact getElem_picks pool _ canon
    next => exact canon
  next => exact canon

/-- Past the threshold a pick has a text. -/
theorem l5Verdict_belowTau {flags : L5Flags} {pool : L5Pool}
    (blank : (turn.rerankPick flags pool).text = []) : turn.l5Verdict flags pool = .belowTau := by
  unfold l5Verdict l5Dispatch
  simp [blank]

theorem l5Pool_scanned {flags : L5Flags} {pool : L5Pool} {entry : Scored}
    (opens : turn.l5Pool flags = some pool) (member : entry ∈ pool.scored) :
    ComesFrom (entry.name, entry.text)
      (l5Candidates turn.geo flags.audit turn.registry turn.nightshift) := by
  unfold l5Pool at opens
  simp only [Option.bind_eq_bind, Option.bind_eq_some_iff, Option.pure_def] at opens
  obtain ⟨user, _, reads⟩ := opens
  split at reads
  next => cases reads
  next =>
    cases reads
    rw [l5Scored, sortScored, List.mem_mergeSort] at member
    obtain ⟨ep, candidate, rfl⟩ := List.mem_map.mp member
    exact ⟨ep, candidate, rfl⟩

theorem l5Recalled_scanned {recalled : Recalled} (picks : turn.l5Recalled = some recalled) :
    ∃ flags, turn.l5 = some flags ∧
      ComesFrom recalled (l5Candidates turn.geo flags.audit turn.registry turn.nightshift) := by
  obtain ⟨⟨flags, pool⟩, opens, dispatched⟩ := Option.bind_eq_some_iff.mp picks
  unfold l5Open at opens
  simp only [Option.bind_eq_bind, Option.bind_eq_some_iff, Option.pure_def] at opens
  obtain ⟨flags', enabled, pool', scanned, same⟩ := opens
  cases same
  refine ⟨flags, enabled, ?_⟩
  have named : turn.l5Verdict flags pool ≠ .belowTau →
      ∃ entry ∈ pool.scored, turn.rerankPick flags pool = entry.pick := by
    intro passes
    rcases @rerankPick_picks turn flags pool with blank | found
    · exact absurd (l5Verdict_belowTau blank) passes
    · exact found
  have scored : turn.l5Verdict flags pool ≠ .belowTau →
      ComesFrom ((turn.rerankPick flags pool).name, (turn.rerankPick flags pool).text)
        (l5Candidates turn.geo flags.audit turn.registry turn.nightshift) := by
    intro passes
    obtain ⟨entry, member, same⟩ := named passes
    rw [same]
    exact l5Pool_scanned scanned member
  simp only at dispatched
  split at dispatched
  next => cases dispatched
  next => cases dispatched
  next message verdict =>
    cases dispatched
    exact scored (by rw [verdict]; exact L5Verdict.noConfusion)
  next mode verdict =>
    split at dispatched
    next =>
      cases dispatched
      exact scored (by rw [verdict]; exact L5Verdict.noConfusion)
    next => cases dispatched

end RecallTurn

/-! ## The spine -/

namespace SpineContext

variable {ctx : SpineContext} {view : LatentView}

theorem l5Scan_scanned {cos : Ieee} {ep : Episode}
    (best : (ctx.l5Scan view).best = some (cos, ep)) :
    ep ∈ view.candidates ∧ ep.l5key.length = ctx.geo.hd := by
  revert cos ep
  unfold l5Scan
  apply List.foldlRecOn (motive := fun state : TopTwo => ∀ {cos ep}, state.best = some (cos, ep) →
    ep ∈ view.candidates ∧ ep.l5key.length = ctx.geo.hd)
  · intro cos ep none
    cases none
  · intro state inductionHypothesis newcomer member cos ep step
    split at step
    next wide =>
      unfold scanStep at step
      split at step
      next leader known =>
        split at step
        next =>
          split at step
          next =>
            cases step
            exact inductionHypothesis known
          next => exact inductionHypothesis step
        next =>
          cases step
          exact ⟨member, wide⟩
      next =>
        cases step
        exact ⟨member, wide⟩
    next => exact inductionHypothesis step

theorem l5Recall_scanned {ref : EpisodeRef} {framing : Delivery}
    (delivers : ctx.l5Recall view .pass = .deliver ref framing) :
    ComesFrom (ref.name, ref.text)
      (view.candidates.filter fun ep => decide (ep.l5key.length = ctx.geo.hd)) := by
  unfold l5Recall at delivers
  simp only at delivers
  split at delivers
  next => cases delivers
  next =>
    split at delivers
    next => cases delivers
    next =>
      split at delivers
      next => cases delivers
      next cos ep best =>
        obtain ⟨member, wide⟩ := l5Scan_scanned best
        split at delivers
        next => cases delivers
        next =>
          -- The margin is an `if` of its own inside the guard.
          split at delivers
          all_goals
            split at delivers
            next => cases delivers
            next =>
              cases delivers
              exact ⟨ep, List.mem_filter.mpr ⟨member, decide_eq_true wide⟩, rfl⟩

theorem headSelector_scanned (score : LatentView → Episode → Ieee) (floor : Ieee)
    (framing : Delivery) :
    ctx.headSelector score floor framing view .pass = .pass ∨
      ∃ ref, ctx.headSelector score floor framing view .pass = .deliver ref framing ∧
        ComesFrom (ref.name, ref.text) view.candidates := by
  unfold headSelector
  simp only
  split
  next s ep best =>
    refine Or.inr ⟨_, rfl, ep, ?_, rfl⟩
    revert s ep
    apply List.foldlRecOn (motive := fun best : Option (Ieee × Episode) =>
      ∀ s ep, best = some (s, ep) → ep ∈ view.candidates)
    · intro s ep none
      cases none
    · intro best inductionHypothesis newcomer member s ep step
      split at step
      next =>
        cases step
        exact member
      next => exact inductionHypothesis s ep step
  next => exact Or.inl rfl

/-- The gate lets a delivery through as it is. -/
theorem attrGate_deliver {current : LatentDecision} {ref : EpisodeRef} {framing : Delivery}
    (delivers : ctx.attrGate view current = .deliver ref framing) :
    current = .deliver ref framing := by
  unfold attrGate at delivers
  split at delivers
  next =>
    split at delivers
    next => exact delivers
    next =>
      simp only at delivers
      split at delivers
      next => cases delivers
      next => exact delivers
  next => exact delivers

end SpineContext

theorem spineDecide_append (view : LatentView) (deciders : List Decider) (last : Decider) :
    spineDecide view (deciders ++ [last]) =
      if (spineDecide view deciders).isTerminal then spineDecide view deciders
      else last view (spineDecide view deciders) := by
  rw [spineDecide, List.foldl_append]
  rfl

namespace SpineLane

variable {lane : SpineLane} {ctx : SpineContext}

theorem buildPipeline_eq : ctx.buildPipeline lane.wc lane.view.framing =
    lane.deciders ctx ++ [ctx.attrGate] := by
  rw [deciders, List.append_assoc]
  rfl

theorem decided_scanned {registry nightshift : List Episode} {ref : EpisodeRef}
    {framing : Delivery}
    (delivers : spineDecide (lane.viewOf registry nightshift) (lane.deciders ctx) =
      .deliver ref framing) :
    ComesFrom (ref.name, ref.text) (lane.scans ctx registry nightshift) := by
  unfold scans
  unfold deciders at delivers
  cases head : lane.wc with
  | none =>
      rw [head] at delivers
      exact SpineContext.l5Recall_scanned delivers
  | some weights =>
      rw [head] at delivers
      rw [Option.isSome_some, if_pos rfl]
      simp only at delivers
      rw [spineDecide_append] at delivers
      have selected := @SpineContext.headSelector_scanned ctx (lane.viewOf registry nightshift)
        (ctx.wcRecallScore weights) weights.s0 lane.view.framing
      have single : spineDecide (lane.viewOf registry nightshift)
          [ctx.headSelector (ctx.wcRecallScore weights) weights.s0 lane.view.framing] =
          ctx.headSelector (ctx.wcRecallScore weights) weights.s0 lane.view.framing
            (lane.viewOf registry nightshift) .pass := rfl
      rw [single] at delivers
      rcases selected with abstains | ⟨winner, wins, scanned⟩
      · rw [abstains] at delivers
        have scanned := SpineContext.l5Recall_scanned delivers
        exact scanned.mono (fun _ member => List.mem_of_mem_filter member)
      · rw [wins] at delivers
        cases delivers
        exact scanned

theorem recalled_scanned {registry nightshift : List Episode} {recalled : Recalled}
    (recalls : lane.recalled ctx registry nightshift = some recalled) :
    ComesFrom recalled (lane.scans ctx registry nightshift) := by
  unfold SpineLane.recalled at recalls
  simp only at recalls
  split at recalls
  next ref framing delivers =>
    split at recalls
    next =>
      cases recalls
      have pipeline : ctx.buildPipeline lane.wc (lane.viewOf registry nightshift).framing =
          lane.deciders ctx ++ [ctx.attrGate] := buildPipeline_eq
      rw [pipeline, spineDecide_append] at delivers
      split at delivers
      next => exact decided_scanned delivers
      next => exact decided_scanned (SpineContext.attrGate_deliver delivers)
    next => cases recalls
  next =>
    split at recalls
    next ref framing delivers =>
      cases recalls
      exact decided_scanned delivers
    next => cases recalls
    next => cases recalls
    next => cases recalls
  next => cases recalls
  next => cases recalls

end SpineLane

/-! ## The turn -/

namespace RecallRequest

variable (request : RecallRequest) (registry nightshift : List Episode)

/-- The episodes the inline L5 lane scores. -/
def filtered : List Episode := l5Candidates request.base.geo false registry nightshift

theorem unfiltered_subset :
    request.unfiltered registry nightshift ⊆ registry ++ nightshift := by
  unfold unfiltered
  split
  next lane _ =>
    unfold SpineLane.scans
    split
    next => exact fun _ member => member
    next => exact fun _ member => List.mem_of_mem_filter member
  next =>
    split
    next lane _ =>
      intro ep member
      rcases List.mem_append.mp (List.mem_of_mem_filter member) with curated | recent
      · exact List.mem_append_left _ curated
      · exact List.mem_append_right _ (List.mem_of_mem_drop recent)
    next =>
      split
      next => exact fun _ member => member
      next => exact List.nil_subset _

theorem recalled_scanned {recalled : Recalled}
    (recalls : request.recalled registry nightshift = some recalled) :
    ComesFrom recalled (request.unfiltered registry nightshift) ∨
      ComesFrom recalled (request.filtered registry nightshift) := by
  unfold RecallRequest.recalled at recalls
  unfold unfiltered
  cases spine : request.spine with
  | some lane =>
      rw [spine] at recalls
      exact Or.inl (SpineLane.recalled_scanned recalls)
  | none =>
      rw [spine] at recalls
      simp only at recalls ⊢
      cases int2 : request.int2 with
      | some lane =>
          rw [int2] at recalls
          exact Or.inl (Int2Lane.recalled_scanned recalls)
      | none =>
          rw [int2] at recalls
          simp only at recalls ⊢
          rcases Option.or_eq_some_iff.mp recalls with fires | ⟨_, others⟩
          · obtain ⟨lane, enabled, fires⟩ := Option.bind_eq_some_iff.mp fires
            rw [enabled, Option.isSome_some, Bool.true_or, if_pos rfl]
            exact Or.inl (WcLane.recalled_scanned fires)
          · rcases Option.or_eq_some_iff.mp others with offers | ⟨_, picks⟩
            · obtain ⟨enabled, scanned⟩ := RecallTurn.jaccardRecalled_scanned offers
              have jaccard : request.base.jaccard.isSome = true := enabled
              rw [jaccard, Bool.or_true, if_pos rfl]
              exact Or.inl scanned
            · obtain ⟨flags, enabled, scanned⟩ := RecallTurn.l5Recalled_scanned picks
              rw [request.audit_unset flags enabled] at scanned
              exact Or.inr scanned

end RecallRequest

end KairosEngine.Daemon
