import KairosEngine.Daemon.Spine
import KairosEngine.Library.Ranking

/-!
# The spine against the inline lane

Both sides read the same query, candidates and flags.  The spine scans once for the
best two and folds the gates over the result; the inline lane filters, sorts and
branches.
-/

namespace KairosEngine.Daemon

open KairosEngine.Library

/-- The inputs of one turn without a learned head, with the side passes, the strict
framing and the per-entry policies off, whose query has finite cosines. -/
structure L5Turn where
  ctx : SpineContext
  flags : L5Flags
  registry : List Episode
  nightshift : List Episode
  rawUser : Option Text
  read : List Ieee
  canon_off : Ieee.lt (.finite 0) flags.canonEps = false
  rerank_off : Ieee.lt (.finite 0) flags.rerankEps = false
  strict_off : flags.strict = false
  policy_off : flags.memPolicy = false
  finite : ∀ ep ∈ registry ++ nightshift, ep.l5key.length = ctx.geo.hd →
    (cos512 ctx.arith (l5QueryEmbed ctx.arith ctx.geo read) ep.l5key).isFinite = true

namespace L5Turn

variable (turn : L5Turn)

def query : List Ieee := l5QueryEmbed turn.ctx.arith turn.ctx.geo turn.read

def user : Text := turn.rawUser.getD []

/-! ## The two sides -/

/-- The view `routes.rs` builds for the spine. -/
def view : LatentView where
  rawUser := turn.user
  globalQ := turn.read
  l5Query := turn.query
  registry := turn.registry
  nightshift := turn.nightshift
  interrogative := turn.ctx.tables.isInterrogative turn.user
  qonly := turn.flags.qonly
  tauL5 := turn.flags.tauL5
  tauMargin := turn.flags.tauMargin
  attrTau := turn.flags.attrTau
  attrGate := turn.flags.attrGate
  framing := .fromEnv (turn.flags.prompt.getD "systemecho")

def spine : LatentDecision :=
  spineDecide turn.view (turn.ctx.buildPipeline none turn.view.framing)

def scored : List Scored :=
  l5Scored turn.ctx.arith turn.ctx.geo turn.flags.audit turn.query turn.registry turn.nightshift

/-- How the inline lane ends; `none` where it does not reach its dispatch. -/
def inline : Option L5Verdict := do
  let user ← laneUser turn.ctx.tables turn.rawUser
  let query := laneQuery turn.ctx.tables turn.ctx.arith turn.ctx.geo turn.flags user
    (some turn.read)
  if query = [] then none
  else
    return l5Dispatch turn.ctx.tables turn.ctx.arith.single turn.flags user turn.scored
      (l5Margin turn.ctx.arith.single turn.scored) (topPick turn.scored)

/-- The spine delivers the memory the lane delivers, declines with its message, or both
leave the prompt alone. -/
def Agrees : Prop :=
  match turn.spine, turn.inline with
  | .deliver episode _, some (.deliver _) =>
      episode = { name := (topPick turn.scored).name
                  text := (topPick turn.scored).text
                  scoreMilli := scoreMilli turn.ctx.arith.single (topPick turn.scored).cos }
  | .decline message, some (.decline message') => message = message'
  | .pass, none => True
  | .pass, some .belowTau => True
  | .pass, some .marginSkip => True
  | _, _ => False

/-! ## The inputs the sides differ on -/

def cos (ep : Episode) : Ieee := cos512 turn.ctx.arith turn.query ep.l5key

def score (ep : Episode) : ℚ := (turn.cos ep).value

/-- Every candidate with a key of the model's width. -/
def keyed : List Episode :=
  (turn.registry ++ turn.nightshift).filter fun ep => decide (ep.l5key.length = turn.ctx.geo.hd)

/-- The keyed candidates that are active, or all of them under audit. -/
def active : List Episode :=
  l5Candidates turn.ctx.geo turn.flags.audit turn.registry turn.nightshift

/-- A statement that the lane skips. -/
def skipped : Bool := turn.flags.qonly && !turn.ctx.tables.isInterrogative turn.user

def blank : Bool := decide (turn.ctx.tables.trim turn.user = [])

/-- Some rival is within the armed margin of the leader. -/
def ambiguous (leader : Episode) (rivals : List Episode) : Bool :=
  Ieee.lt (.finite 0) turn.flags.tauMargin && rivals.any fun rival =>
    (turn.ctx.arith.single.sub (turn.cos leader) (turn.cos rival)).lt turn.flags.tauMargin

/-- The armed attribute gate refuses a fact. -/
def refused (ep : Episode) : Bool :=
  turn.flags.attrGate &&
    turn.flags.attrTau.le
      (turn.ctx.tables.attrAbsentRatio turn.ctx.arith.single turn.user ep.text) &&
    turn.ctx.tables.queryHasEntityToken turn.user

/-- The leading active memory clears the threshold and has a text. -/
def Stands (leader : Episode) (rivals : List Episode) : Prop :=
  turn.blank = false ∧ Leads turn.score turn.active leader rivals ∧
    turn.flags.tauL5.le (turn.cos leader) = true ∧ leader.text ≠ []

/-- The reference the executor gets for a memory. -/
def episodeRef (ep : Episode) : EpisodeRef :=
  { name := ep.name, text := ep.text, scoreMilli := scoreMilli turn.ctx.arith.single (turn.cos ep) }

/-- When the leading keyed memory, superseded or not, is treated as the leading active
one is. -/
def Aligned : Prop :=
  turn.skipped = true ∨
    ∀ leader rivals, Leads turn.score turn.keyed leader rivals →
      (turn.cos leader).lt turn.flags.tauL5 = false →
      (turn.ambiguous leader rivals = true → ∀ standing others, turn.Stands standing others →
        turn.refused standing = false ∧ turn.ambiguous standing others = true) ∧
      (turn.ambiguous leader rivals = false → turn.refused leader = true →
        ∃ standing others, turn.Stands standing others ∧ turn.refused standing = true) ∧
      (turn.ambiguous leader rivals = false → turn.refused leader = false →
        ∃ standing others, turn.Stands standing others ∧ turn.refused standing = false ∧
          turn.ambiguous standing others = false ∧
          turn.episodeRef leader = turn.episodeRef standing)

/-! ## Leaders and their rivals -/

/-- `second` is the best score beside the leader, if there is one. -/
def RunnerUp (others : List Episode) (second : Ieee) : Prop :=
  others = [] ∧ second = .negInf ∨
    ∃ rival ∈ others, second = turn.cos rival ∧ ∀ ep ∈ others, turn.score ep ≤ turn.score rival

theorem cos_finite {ep : Episode} (membership : ep ∈ turn.keyed) :
    (turn.cos ep).isFinite = true := by
  rw [keyed, List.mem_filter] at membership
  exact turn.finite ep membership.1 (of_decide_eq_true membership.2)

theorem active_subset {ep : Episode} (membership : ep ∈ turn.active) : ep ∈ turn.keyed := by
  rw [active, l5Candidates, List.mem_filter] at membership
  rw [keyed, List.mem_filter]
  have conditions := membership.2
  rw [Bool.and_eq_true] at conditions
  exact ⟨membership.1, conditions.1⟩

theorem score_lt_iff {left right : Episode} (inLeft : left ∈ turn.keyed)
    (inRight : right ∈ turn.keyed) :
    (turn.cos left).lt (turn.cos right) = true ↔ turn.score left < turn.score right :=
  Ieee.lt_iff_value (turn.cos_finite inLeft) (turn.cos_finite inRight)

theorem score_le_iff {left right : Episode} (inLeft : left ∈ turn.keyed)
    (inRight : right ∈ turn.keyed) :
    (turn.cos left).le (turn.cos right) = true ↔ turn.score left ≤ turn.score right :=
  Ieee.le_iff_value (turn.cos_finite inLeft) (turn.cos_finite inRight)

/-- Both sides compute the margin from the second best score. -/
theorem margin_lt_eq {leader : Episode} {rivals : List Episode} {second : Ieee}
    (inLeader : leader ∈ turn.keyed) (inRivals : ∀ rival ∈ rivals, rival ∈ turn.keyed)
    (runnerUp : turn.RunnerUp rivals second) :
    (Ieee.lt (.finite 0) turn.flags.tauMargin &&
      (if second.isFinite then turn.ctx.arith.single.sub (turn.cos leader) second
        else .posInf).lt turn.flags.tauMargin) = turn.ambiguous leader rivals := by
  rw [ambiguous]
  congr 1
  rcases runnerUp with ⟨rfl, rfl⟩ | ⟨rival, membership, rfl, best⟩
  · rfl
  · rw [if_pos (turn.cos_finite (inRivals rival membership)), Bool.eq_iff_iff, List.any_eq_true]
    constructor
    · intro close
      exact ⟨rival, membership, close⟩
    · rintro ⟨other, inOthers, close⟩
      refine Ieee.lt_of_le_of_lt ?_ close
      apply turn.ctx.arith.single.sub_antitone (turn.cos_finite inLeader)
        (turn.cos_finite (inRivals other inOthers)) (turn.cos_finite (inRivals rival membership))
      exact (turn.score_le_iff (inRivals other inOthers) (inRivals rival membership)).mpr
        (best other inOthers)

/-! ## The scan -/

theorem runnerUp_follow {others : List Episode} {second : Ieee} {newcomer : Episode}
    (runnerUp : turn.RunnerUp others second) (inOthers : ∀ ep ∈ others, ep ∈ turn.keyed)
    (inNewcomer : newcomer ∈ turn.keyed) :
    turn.RunnerUp (others ++ [newcomer])
      (if second.lt (turn.cos newcomer) then turn.cos newcomer else second) := by
  apply Or.inr
  have finiteNewcomer := turn.cos_finite inNewcomer
  rcases runnerUp with ⟨rfl, rfl⟩ | ⟨rival, membership, rfl, best⟩
  · refine ⟨newcomer, by simp, ?_, by simp⟩
    rw [Ieee.eq_finite_of_isFinite finiteNewcomer]
    rfl
  · have inRival := inOthers rival membership
    split
    next better =>
      rw [turn.score_lt_iff inRival inNewcomer] at better
      refine ⟨newcomer, by simp, rfl, ?_⟩
      intro ep inPool
      rcases List.mem_append.mp inPool with earlier | last
      · exact le_of_lt (lt_of_le_of_lt (best ep earlier) better)
      · rw [List.mem_singleton.mp last]
    next noBetter =>
      refine ⟨rival, by simp [membership], rfl, ?_⟩
      intro ep inPool
      rcases List.mem_append.mp inPool with earlier | last
      · exact best ep earlier
      · rw [List.mem_singleton.mp last]
        rw [turn.score_lt_iff inRival inNewcomer] at noBetter
        exact le_of_not_gt noBetter

/-- What the running scan holds after a pool. -/
def ScanHolds (pool : List Episode) (state : SpineContext.TopTwo) : Prop :=
  pool = [] ∧ state = { best := none, second := .negInf } ∨
    ∃ leader rivals, Leads turn.score pool leader rivals ∧
      state.best = some (turn.cos leader, leader) ∧ turn.RunnerUp rivals state.second

theorem scanStep_holds {pool : List Episode} {state : SpineContext.TopTwo} {newcomer : Episode}
    (holds : turn.ScanHolds pool state) (inPool : ∀ ep ∈ pool, ep ∈ turn.keyed)
    (inNewcomer : newcomer ∈ turn.keyed) :
    turn.ScanHolds (pool ++ [newcomer])
      (SpineContext.scanStep state (turn.cos newcomer) newcomer) := by
  apply Or.inr
  rcases holds with ⟨rfl, rfl⟩ | ⟨leader, rivals, leads, best, runnerUp⟩
  · exact ⟨newcomer, [], Leads.singleton newcomer, rfl, Or.inl ⟨rfl, rfl⟩⟩
  · have inLeader := inPool leader leads.mem
    have inRivals : ∀ rival ∈ rivals, rival ∈ turn.keyed := fun rival membership =>
      inPool rival (leads.subset rival membership)
    have followed := turn.runnerUp_follow runnerUp inRivals inNewcomer
    rw [SpineContext.scanStep, best]
    simp only
    split
    next noBetter =>
      rw [turn.score_le_iff inNewcomer inLeader] at noBetter
      refine ⟨leader, rivals ++ [newcomer], leads.follow noBetter, ?_, ?_⟩
      · split
        next => rfl
        next => exact best
      · split at followed
        next better => rwa [if_pos better]
        next noSecond => rwa [if_neg noSecond]
    next better =>
      rw [turn.score_le_iff inNewcomer inLeader, not_le] at better
      refine ⟨newcomer, pool, leads.overtake better, rfl, Or.inr ⟨leader, leads.mem, rfl, ?_⟩⟩
      intro ep membership
      rcases List.mem_cons.mp (leads.perm.subset membership) with rfl | other
      · exact le_refl _
      · exact leads.le ep other

theorem l5Scan_holds : turn.ScanHolds turn.keyed (turn.ctx.l5Scan turn.view) := by
  have prefixes : ∀ pool : List Episode, (∀ ep ∈ pool, ep ∈ turn.registry ++ turn.nightshift) →
      turn.ScanHolds (pool.filter fun ep => decide (ep.l5key.length = turn.ctx.geo.hd))
        (pool.foldl
          (fun state ep =>
            if ep.l5key.length = turn.ctx.geo.hd then
              SpineContext.scanStep state (cos512 turn.ctx.arith turn.view.l5Query ep.l5key) ep
            else
              state)
          { best := none, second := .negInf }) := by
    intro pool
    induction pool using List.reverseRecOn with
    | nil => exact fun _ => Or.inl ⟨rfl, rfl⟩
    | append_singleton pool newcomer inductionHypothesis =>
        intro inside
        have earlier := inductionHypothesis fun ep membership => inside ep (by simp [membership])
        rw [List.foldl_append, List.filter_append, List.foldl_cons, List.foldl_nil]
        by_cases keyed : newcomer.l5key.length = turn.ctx.geo.hd
        · rw [if_pos keyed, List.filter_singleton, decide_eq_true keyed, cond_true]
          have member : ∀ ep ∈ pool.filter fun ep =>
              decide (ep.l5key.length = turn.ctx.geo.hd), ep ∈ turn.keyed := by
            intro ep membership
            rw [List.mem_filter] at membership
            exact List.mem_filter.mpr ⟨inside ep (by simp [membership.1]), membership.2⟩
          exact turn.scanStep_holds earlier member
            (List.mem_filter.mpr ⟨inside newcomer (by simp), decide_eq_true keyed⟩)
        · rw [if_neg keyed, List.filter_singleton, decide_eq_false keyed, cond_false, List.append_nil]
          exact earlier
  exact prefixes (turn.registry ++ turn.nightshift) fun ep membership => membership

/-! ## The sort -/

theorem scored_eq : turn.scored =
    (rankDescending turn.score turn.active).map (scoreEpisode turn.ctx.arith turn.query) := by
  rw [scored, l5Scored, sortScored, rankDescending]
  symm
  apply List.map_mergeSort
  intro left inLeft right inRight
  have ordered := turn.score_lt_iff (turn.active_subset inLeft) (turn.active_subset inRight)
  rw [Bool.eq_iff_iff, decide_eq_true_eq, Bool.not_eq_true', ← not_lt, ← ordered,
    Bool.not_eq_true]
  rfl

/-- The head of the sort is the leading active memory, and the score behind it is the
best of its rivals. -/
theorem scored_of_leads {leader : Episode} {rivals : List Episode}
    (leads : Leads turn.score turn.active leader rivals) :
    topPick turn.scored = (scoreEpisode turn.ctx.arith turn.query leader).pick ∧
      turn.RunnerUp rivals ((turn.scored[1]?.map Scored.cos).getD .negInf) := by
  obtain ⟨rest, ranked, same, best⟩ := leads.rankDescending_eq
  rw [turn.scored_eq, ranked]
  refine ⟨rfl, ?_⟩
  cases rest with
  | nil => exact Or.inl ⟨same.nil_eq.symm, rfl⟩
  | cons second rest =>
      apply Or.inr
      exact ⟨second, same.subset List.mem_cons_self, rfl,
        fun ep membership => best ep membership second rfl⟩

theorem scored_of_none (none : turn.active = []) :
    topPick turn.scored = { cos := .negInf, name := "", text := [] } := by
  rw [turn.scored_eq, none, rankDescending, List.mergeSort_nil]
  rfl

/-! ## How each side ends -/

theorem refused_eq (user : Text) (same : turn.ctx.tables.trim turn.user = user) (ep : Episode) :
    forceDecline turn.ctx.tables turn.ctx.arith.single turn.flags none user ep.text =
      turn.refused ep := by
  subst same
  rw [forceDecline, refused, turn.ctx.tables.attrAbsentRatio_trim,
    turn.ctx.tables.queryHasEntityToken_trim]
  cases armed : turn.flags.attrGate with
  | false => simp [policyAttrGate]
  | true => simp [policyAttrGate]

theorem laneUser_eq (blank : turn.blank = false) :
    laneUser turn.ctx.tables turn.rawUser = some (turn.ctx.tables.trim turn.user) := by
  rw [L5Turn.blank, decide_eq_false_iff_not, user] at blank
  cases raw : turn.rawUser with
  | none =>
      rw [raw] at blank
      exact absurd rfl blank
  | some text =>
      rw [raw] at blank
      simp only [Option.getD_some] at blank
      simp [laneUser, user, raw, blank]

theorem laneUser_blank (blank : turn.blank = true) :
    laneUser turn.ctx.tables turn.rawUser = none := by
  rw [L5Turn.blank, decide_eq_true_eq, user] at blank
  cases raw : turn.rawUser with
  | none => rfl
  | some text =>
      rw [raw] at blank
      simp only [Option.getD_some] at blank
      simp [laneUser, blank]

theorem inline_blank (blank : turn.blank = true) : turn.inline = none := by
  rw [inline, turn.laneUser_blank blank]
  rfl

theorem inline_skipped (skipped : turn.skipped = true) : turn.inline = none := by
  cases blank : turn.blank with
  | true => exact turn.inline_blank blank
  | false =>
      rw [inline, turn.laneUser_eq blank]
      have lane : laneQuery turn.ctx.tables turn.ctx.arith turn.ctx.geo turn.flags
          (turn.ctx.tables.trim turn.user) (some turn.read) = [] := by
        rw [laneQuery, turn.ctx.tables.isInterrogative_trim]
        exact if_pos skipped
      simp [lane]

theorem inline_eq (blank : turn.blank = false) (skipped : turn.skipped = false)
    (reads : turn.query ≠ []) :
    turn.inline = some (l5Dispatch turn.ctx.tables turn.ctx.arith.single turn.flags
      (turn.ctx.tables.trim turn.user) turn.scored
      (l5Margin turn.ctx.arith.single turn.scored) (topPick turn.scored)) := by
  rw [inline, turn.laneUser_eq blank]
  have lane : laneQuery turn.ctx.tables turn.ctx.arith turn.ctx.geo turn.flags
      (turn.ctx.tables.trim turn.user) (some turn.read) = turn.query := by
    rw [laneQuery, turn.ctx.tables.isInterrogative_trim, if_neg]
    · rfl
    · rw [← Bool.not_eq_true] at skipped
      exact skipped
  simp [lane, reads]

theorem inline_of_leads {leader : Episode} {rivals : List Episode} (blank : turn.blank = false)
    (skipped : turn.skipped = false) (reads : turn.query ≠ [])
    (leads : Leads turn.score turn.active leader rivals) :
    turn.inline = some
      (if turn.flags.tauL5.le (turn.cos leader) && decide (leader.text ≠ []) then
        if turn.refused leader then .decline defaultDecline
        else if turn.ambiguous leader rivals then .marginSkip
        else .deliver (deliveryMode turn.flags none)
      else .belowTau) := by
  obtain ⟨top, runnerUp⟩ := turn.scored_of_leads leads
  rw [turn.inline_eq blank skipped reads, l5Dispatch, l5Margin, top]
  have policy : ∀ name, l5Policy turn.flags.memPolicy turn.scored name = none := by
    intro name
    rw [l5Policy, turn.policy_off]
    rfl
  have inRivals : ∀ rival ∈ rivals, rival ∈ turn.keyed := fun rival membership =>
    turn.active_subset (leads.subset rival membership)
  have margin := turn.margin_lt_eq (turn.active_subset leads.mem) inRivals runnerUp
  have refused := turn.refused_eq (turn.ctx.tables.trim turn.user) rfl leader
  simp only [policy]
  change some (if turn.flags.tauL5.le (turn.cos leader) && decide (leader.text ≠ []) then
    if forceDecline turn.ctx.tables turn.ctx.arith.single turn.flags none
      (turn.ctx.tables.trim turn.user) leader.text then _ else
    if (Ieee.lt (.finite 0) turn.flags.tauMargin &&
      (if ((turn.scored[1]?.map Scored.cos).getD .negInf).isFinite then
        turn.ctx.arith.single.sub (turn.cos leader)
          ((turn.scored[1]?.map Scored.cos).getD .negInf)
        else .posInf).lt turn.flags.tauMargin) then _ else _ else _) = _
  rw [margin, refused]
  rfl

theorem inline_of_none (none : turn.active = []) :
    turn.inline = Option.none ∨ turn.inline = some .belowTau := by
  cases blank : turn.blank with
  | true => exact Or.inl (turn.inline_blank blank)
  | false =>
      cases skipped : turn.skipped with
      | true => exact Or.inl (turn.inline_skipped skipped)
      | false =>
          by_cases reads : turn.query = []
          · apply Or.inl
            rw [inline, turn.laneUser_eq blank]
            have lane : laneQuery turn.ctx.tables turn.ctx.arith turn.ctx.geo turn.flags
                (turn.ctx.tables.trim turn.user) (some turn.read) = [] := by
              rw [laneQuery]
              split
              next => rfl
              next => exact reads
            simp [lane]
          · apply Or.inr
            rw [turn.inline_eq blank skipped reads, l5Dispatch, turn.scored_of_none none]
            simp

theorem spine_eq (quiet : (turn.ctx.l5Recall turn.view .pass).isTerminal = false) :
    turn.spine = turn.ctx.attrGate turn.view (turn.ctx.l5Recall turn.view .pass) := by
  change (if (turn.ctx.l5Recall turn.view .pass).isTerminal then _ else _) = _
  rw [quiet]
  rfl

theorem spine_of_pass (abstains : turn.ctx.l5Recall turn.view .pass = .pass) :
    turn.spine = .pass := by
  have quiet : (turn.ctx.l5Recall turn.view .pass).isTerminal = false := by
    rw [abstains]
    rfl
  rw [turn.spine_eq quiet, abstains]
  rfl

theorem spine_skipped (skipped : turn.skipped = true) : turn.spine = .pass :=
  turn.spine_of_pass (if_pos skipped)

theorem query_length (reads : turn.query ≠ []) : turn.query.length = turn.ctx.geo.hd := by
  rcases l5QueryEmbed_length turn.ctx.arith turn.ctx.geo turn.read with empty | full
  · exact absurd empty reads
  · exact full

theorem keyed_of_no_query (reads : turn.query = []) : turn.keyed = [] := by
  rw [List.eq_nil_iff_forall_not_mem]
  intro ep membership
  have finite := turn.cos_finite membership
  have keyed := (List.mem_filter.mp membership).2
  rw [decide_eq_true_eq] at keyed
  rw [cos, cos512, reads, if_pos] at finite
  · exact absurd finite (by simp [Ieee.isFinite])
  · apply Or.inl
    rw [keyed]
    exact Nat.ne_of_lt turn.ctx.geo.hd_pos

theorem spine_of_none (none : turn.keyed = []) : turn.spine = .pass := by
  apply turn.spine_of_pass
  have scan := turn.l5Scan_holds
  rw [none] at scan
  rcases scan with ⟨-, scan⟩ | ⟨leader, rivals, leads, -, -⟩
  · rw [SpineContext.l5Recall]
    simp only [scan]
    split
    next => rfl
    next =>
      split
      next => rfl
      next => rfl
  · exact absurd leads.mem (by simp)

theorem spine_of_leads {leader : Episode} {rivals : List Episode} (skipped : turn.skipped = false)
    (leads : Leads turn.score turn.keyed leader rivals) :
    turn.spine =
      if (turn.cos leader).lt turn.flags.tauL5 then .pass
      else if turn.ambiguous leader rivals then .pass
      else if turn.refused leader then .decline defaultDecline
      else .deliver (turn.episodeRef leader) turn.view.framing := by
  have reads : turn.query ≠ [] := by
    intro empty
    have membership := leads.mem
    rw [turn.keyed_of_no_query empty] at membership
    simp at membership
  have inRivals : ∀ rival ∈ rivals, rival ∈ turn.keyed := leads.subset
  have atL5 : turn.ctx.l5Recall turn.view .pass =
      if (turn.cos leader).lt turn.flags.tauL5 then .pass
      else if turn.ambiguous leader rivals then .pass
      else .deliver (turn.episodeRef leader) turn.view.framing := by
    rcases turn.l5Scan_holds with ⟨none, -⟩ | ⟨leader', rivals', leads', best, runnerUp⟩
    · have membership := leads.mem
      rw [none] at membership
      simp at membership
    · obtain ⟨rfl, rfl⟩ := leads.unique leads'
      have margin := turn.margin_lt_eq leads.mem inRivals runnerUp
      have length : turn.view.l5Query.length = turn.ctx.geo.hd := turn.query_length reads
      have active : (turn.view.qonly && !turn.view.interrogative) = false := skipped
      rw [SpineContext.l5Recall]
      simp only [active, length, best, ne_eq, not_true_eq_false, if_false, Bool.false_eq_true]
      change (if (turn.cos leader).lt turn.flags.tauL5 then _ else
        if (Ieee.lt (.finite 0) turn.flags.tauMargin &&
          (if (turn.ctx.l5Scan turn.view).second.isFinite then
            turn.ctx.arith.single.sub (turn.cos leader) (turn.ctx.l5Scan turn.view).second
            else .posInf).lt turn.flags.tauMargin) then _ else _) = _
      rw [margin]
      rfl
  have quiet : (turn.ctx.l5Recall turn.view .pass).isTerminal = false := by
    rw [atL5]
    split
    next => rfl
    next =>
      split
      next => rfl
      next => rfl
  rw [turn.spine_eq quiet, atL5]
  split
  next => rfl
  next =>
    split
    next => rfl
    next =>
      rw [SpineContext.attrGate, refused]
      simp only [view, episodeRef]
      by_cases armed : turn.flags.attrGate = true
      · simp [armed]
      · simp [armed]

/-! ## The agreement -/

theorem exists_leads_active {leader : Episode} {rivals : List Episode}
    (leads : Leads turn.score turn.active leader rivals) :
    ∃ first others, Leads turn.score turn.keyed first others := by
  rcases exists_leads turn.score turn.keyed with none | found
  · have membership := turn.active_subset leads.mem
    rw [none] at membership
    simp at membership
  · exact found

/-- A leading active memory that clears the threshold has a leading keyed one above it. -/
theorem Stands.clears {turn : L5Turn} {leader first : Episode} {rivals others : List Episode}
    (stands : turn.Stands leader rivals) (leads : Leads turn.score turn.keyed first others) :
    (turn.cos first).lt turn.flags.tauL5 = false := by
  rcases stands with ⟨-, active, clears, -⟩
  have membership := turn.active_subset active.mem
  have below : turn.score leader ≤ turn.score first := by
    rcases List.mem_cons.mp (leads.perm.subset membership) with rfl | other
    · exact le_refl _
    · exact leads.le leader other
  rw [← turn.score_le_iff membership leads.mem] at below
  have above := Ieee.le_trans clears below
  exact Ieee.lt_eq_false_of_le above

/-- Where the inline lane stands at its dispatch. -/
theorem inline_cases (skipped : turn.skipped = false) :
    (∃ leader rivals, turn.Stands leader rivals ∧ turn.inline = some
      (if turn.refused leader then .decline defaultDecline
        else if turn.ambiguous leader rivals then .marginSkip
        else .deliver (deliveryMode turn.flags none)) ∧
      topPick turn.scored = (scoreEpisode turn.ctx.arith turn.query leader).pick) ∨
    ((∀ leader rivals, ¬ turn.Stands leader rivals) ∧
      (turn.inline = none ∨ turn.inline = some .belowTau)) := by
  rcases exists_leads turn.score turn.active with none | ⟨leader, rivals, leads⟩
  · apply Or.inr
    refine ⟨?_, turn.inline_of_none none⟩
    rintro leader rivals ⟨-, leads, -, -⟩
    have membership := leads.mem
    rw [none] at membership
    simp at membership
  · cases blank : turn.blank with
    | true =>
        apply Or.inr
        refine ⟨?_, Or.inl (turn.inline_blank blank)⟩
        rintro _ _ ⟨shown, -, -, -⟩
        rw [blank] at shown
        exact absurd shown (by simp)
    | false =>
        have reads : turn.query ≠ [] := by
          intro empty
          have membership := turn.active_subset leads.mem
          rw [turn.keyed_of_no_query empty] at membership
          simp at membership
        have ends := turn.inline_of_leads blank skipped reads leads
        by_cases stands : (turn.flags.tauL5.le (turn.cos leader) &&
            decide (leader.text ≠ [])) = true
        · apply Or.inl
          rw [if_pos stands] at ends
          rw [Bool.and_eq_true, decide_eq_true_eq] at stands
          exact ⟨leader, rivals, ⟨blank, leads, stands.1, stands.2⟩, ends,
            (turn.scored_of_leads leads).1⟩
        · apply Or.inr
          rw [if_neg stands] at ends
          refine ⟨?_, Or.inr ends⟩
          rintro leader' rivals' ⟨-, leads', clears, text⟩
          obtain ⟨rfl, rfl⟩ := leads.unique leads'
          exact stands (by simp [clears, text])

theorem Stands.unique {turn : L5Turn} {leader leader' : Episode} {rivals rivals' : List Episode}
    (stands : turn.Stands leader rivals) (stands' : turn.Stands leader' rivals') :
    leader = leader' ∧ rivals = rivals' :=
  stands.2.1.unique stands'.2.1

/-- The alignment for a leading keyed memory that clears the threshold. -/
theorem aligned_iff_of_leads {first : Episode} {rivals : List Episode}
    (skipped : turn.skipped = false) (leads : Leads turn.score turn.keyed first rivals)
    (clears : (turn.cos first).lt turn.flags.tauL5 = false) :
    turn.Aligned ↔
      (turn.ambiguous first rivals = true → ∀ standing others, turn.Stands standing others →
        turn.refused standing = false ∧ turn.ambiguous standing others = true) ∧
      (turn.ambiguous first rivals = false → turn.refused first = true →
        ∃ standing others, turn.Stands standing others ∧ turn.refused standing = true) ∧
      (turn.ambiguous first rivals = false → turn.refused first = false →
        ∃ standing others, turn.Stands standing others ∧ turn.refused standing = false ∧
          turn.ambiguous standing others = false ∧
          turn.episodeRef first = turn.episodeRef standing) := by
  constructor
  · rintro (skips | aligned)
    · rw [skipped] at skips
      exact absurd skips (by simp)
    · exact aligned first rivals leads clears
  · intro aligned
    apply Or.inr
    intro leader others leads' _
    obtain ⟨rfl, rfl⟩ := leads.unique leads'
    exact aligned

/-- Where nothing stands at the inline dispatch, a turn that the spine passes on agrees. -/
theorem agrees_of_pass (skipped : turn.skipped = false) (passes : turn.spine = .pass)
    (unstood : ∀ leader rivals, ¬ turn.Stands leader rivals) : turn.Agrees := by
  rw [Agrees, passes]
  rcases turn.inline_cases skipped with ⟨leader, others, stands, -, -⟩ | ⟨-, ends | ends⟩
  · exact absurd stands (unstood leader others)
  · rw [ends]
    trivial
  · rw [ends]
    trivial

section Standing

variable {turn} {leader : Episode} {others : List Episode} {P : Episode → List Episode → Prop}

theorem Stands.forall_iff (stands : turn.Stands leader others) :
    (∀ standing rest, turn.Stands standing rest → P standing rest) ↔ P leader others := by
  constructor
  · intro all
    exact all leader others stands
  · intro holds standing rest stands'
    obtain ⟨rfl, rfl⟩ := stands.unique stands'
    exact holds

theorem Stands.exists_iff (stands : turn.Stands leader others) :
    (∃ standing rest, turn.Stands standing rest ∧ P standing rest) ↔ P leader others := by
  constructor
  · rintro ⟨standing, rest, stands', holds⟩
    obtain ⟨rfl, rfl⟩ := stands.unique stands'
    exact holds
  · intro holds
    exact ⟨leader, others, stands, holds⟩

end Standing

/-- The sides agree on a leading keyed memory that clears the threshold exactly when the leading
active one is treated like it. -/
theorem agrees_iff_aligned_of_leads {first : Episode} {rivals : List Episode}
    (skipped : turn.skipped = false) (leads : Leads turn.score turn.keyed first rivals)
    (clears : (turn.cos first).lt turn.flags.tauL5 = false) : turn.Agrees ↔ turn.Aligned := by
  rw [turn.aligned_iff_of_leads skipped leads clears, Agrees, turn.spine_of_leads skipped leads,
    if_neg (by simp [clears])]
  rcases turn.inline_cases skipped with ⟨leader, others, stands, ends, top⟩ | ⟨none, ends⟩
  · rw [ends, stands.forall_iff, stands.exists_iff, stands.exists_iff, top]
    cases ambiguous : turn.ambiguous first rivals with
    | true =>
        cases refused : turn.refused leader with
        | true => simp
        | false => cases close : turn.ambiguous leader others <;> simp
    | false =>
        cases refusedFirst : turn.refused first with
        | true =>
            cases refused : turn.refused leader with
            | true => simp
            | false => cases close : turn.ambiguous leader others <;> simp
        | false =>
            cases refused : turn.refused leader with
            | true => simp
            | false =>
                cases close : turn.ambiguous leader others with
                | true => simp
                | false => simp [episodeRef, scoreEpisode, Scored.pick, cos]
  · cases ambiguous : turn.ambiguous first rivals with
    | true =>
        rcases ends with ends | ends <;>
          simp [ends, none]
    | false =>
        cases refused : turn.refused first with
        | true => rcases ends with ends | ends <;> simp [ends, none]
        | false => rcases ends with ends | ends <;> simp [ends, none]

/-- The two sides agree exactly when the leading keyed memory is treated as the leading
active one is. -/
theorem agrees_iff_aligned : turn.Agrees ↔ turn.Aligned := by
  cases skipped : turn.skipped with
  | true =>
      rw [Agrees, turn.spine_skipped skipped, turn.inline_skipped skipped]
      exact iff_of_true trivial (Or.inl skipped)
  | false =>
      rcases exists_leads turn.score turn.keyed with none | ⟨first, rivals, leads⟩
      · have unled : ∀ first rivals, ¬ Leads turn.score turn.keyed first rivals := by
          intro first rivals leads
          have membership := leads.mem
          rw [none] at membership
          simp at membership
        refine iff_of_true (turn.agrees_of_pass skipped (turn.spine_of_none none) ?_)
          (Or.inr fun first rivals leads => absurd leads (unled first rivals))
        intro leader others stands
        obtain ⟨first, rivals, leads⟩ := turn.exists_leads_active stands.2.1
        exact unled first rivals leads
      · cases clears : (turn.cos first).lt turn.flags.tauL5 with
        | true =>
            have passes := turn.spine_of_leads skipped leads
            rw [if_pos clears] at passes
            refine iff_of_true (turn.agrees_of_pass skipped passes ?_) (Or.inr ?_)
            · intro leader others stands
              have above := stands.clears leads
              rw [clears] at above
              exact absurd above (by simp)
            · intro first' rivals' leads' clears'
              obtain ⟨rfl, rfl⟩ := leads.unique leads'
              rw [clears] at clears'
              exact absurd clears' (by simp)
        | false => exact turn.agrees_iff_aligned_of_leads skipped leads clears

/-- One superseded memory whose key is the query. -/
def supersededMemory : Episode where
  name := "ep0"
  dir := ""
  npos := 1
  topic := []
  text := "the code is 7".toList
  sig := []
  gk := []
  gkNg := 0
  tokens := none
  l5key := [.finite 1]
  policy := none
  lifecycle := 1

def supersededTurn : L5Turn where
  ctx := { tables := .ascii, arith := .exact, geo := .singleRow }
  flags :=
    { qonly := false, tauL5 := .finite (3 / 10), tauMargin := .finite 0, canonEps := .finite 0
      rerankEps := .finite 0, attrGate := false, attrTau := .finite (1 / 2), memPolicy := false
      strict := false, audit := false, prompt := none }
  registry := [supersededMemory]
  nightshift := []
  rawUser := some "what is the code?".toList
  read := [.finite 1]
  canon_off := by decide
  rerank_off := by decide
  strict_off := rfl
  policy_off := rfl
  finite := by
    intro ep membership _
    rw [List.append_nil, List.mem_singleton] at membership
    rw [membership]
    decide +kernel

/-- The spine delivers the memory that the inline lane filters out. -/
theorem spine_delivers_superseded : ¬ supersededTurn.Agrees := by
  have leads : Leads supersededTurn.score supersededTurn.keyed supersededMemory [] :=
    Leads.singleton supersededMemory
  have spine := supersededTurn.spine_of_leads (rfl) leads
  rw [if_neg (by decide +kernel), if_neg (by decide), if_neg (by decide)] at spine
  have inactive : supersededTurn.active = [] := rfl
  rw [Agrees, spine]
  rcases supersededTurn.inline_of_none inactive with ends | ends
  · rw [ends]
    exact id
  · rw [ends]
    exact id

end L5Turn

end KairosEngine.Daemon
