import KairosEngine.Daemon.RecallLanes

/-!
# What the recall stage leaves for the synthesis

Each lane either rebuilds the cache for a delivery, ends the turn with a decline, or
hands over whatever its last reset left behind.  The last case is the warm prompt only
where nothing was reset.
-/

namespace KairosEngine.Daemon

open KairosEngine.Library Residency

theorem prefill_reset (res : Residency) (verdict : Verdict) (toks : List Int) :
    res.reset.prefill verdict toks =
      if verdict = .ok then .ok (res.withEntries (minted toks))
      else .error (res.withEntries (verdict.remains [])) := by
  cases verdict with
  | ok => rfl
  | refuse => rfl
  | spoil left => rfl

/-- At the synthesis step the warm prompt stands with its last token, or the prompt of
the delivery does; after a symbolic decline there is no such step. -/
def Settled (head : List Entry) (last : Int) (syn : Synthesis) : Prop :=
  syn.symbolicDecline = none →
    (syn.recalled = none ∧ syn.res.entries = head ∧ syn.synLast = last) ∨
      (syn.recalled ≠ none ∧ ∃ ids, syn.delivered = some ids ∧
        syn.res.entries = minted ids.dropLast ∧ ids.getLast? = some syn.synLast)

theorem settled_of_delivered {head : List Entry} {last : Int} {syn : Synthesis} {ids : List Int}
    (recalled : syn.recalled ≠ none) (delivered : syn.delivered = some ids)
    (nonempty : 2 ≤ ids.length) (entries : syn.res.entries = minted ids.dropLast)
    (fed : syn.synLast = ids.getLastD 0) : Settled head last syn := by
  intro _
  refine Or.inr ⟨recalled, ids, delivered, entries, ?_⟩
  cases ids with
  | nil => simp at nonempty
  | cons first rest => simp [fed, List.getLast?_cons]

/-- Where nothing was recalled or declined, only the cache can be wrong. -/
theorem settled_iff_entries {head : List Entry} {syn : Synthesis}
    (unrecalled : syn.recalled = none) (undeclined : syn.symbolicDecline = none) :
    Settled head syn.synLast syn ↔ syn.res.entries = head := by
  constructor
  · intro settled
    rcases settled undeclined with ⟨_, entries, _⟩ | ⟨recalled, _⟩
    · exact entries
    · exact absurd unrecalled recalled
  · intro entries _
    exact Or.inl ⟨unrecalled, entries, rfl⟩

namespace RecallTurn

variable (turn : RecallTurn)

theorem template_length {messages : List Message} {ids : List Int}
    (served : turn.template messages = some ids) : 2 ≤ ids.length := by
  rw [template, Option.filter_eq_some_iff] at served
  exact of_decide_eq_true served.2

/-! ## What a lane does to the cache -/

def JaccardDelivers : Prop := turn.jaccardOffer ≠ none ∧ turn.jaccardPrefill = .ok

def jaccardResidue : Option (List Entry) :=
  turn.jaccardOffer.map fun _ => turn.jaccardPrefill.remains []

section L5

variable (flags : L5Flags) (pool : L5Pool)

/-- The side pass that ran last leaves its own prompt and reply. -/
def sideResidue : Option (List Entry) :=
  ((turn.rerankPass flags pool).or (turn.canonPass flags pool)).map SideOutcome.entries

def L5Delivers : Prop :=
  ∃ mode, turn.l5Verdict flags pool = .deliver mode ∧ turn.l5Ids flags pool mode ≠ none ∧
    turn.deliverPrefill = .ok

def L5Declines : Prop := ∃ message, turn.l5Verdict flags pool = .decline message

/-- A delivery whose prefill fails resets the cache once more. -/
def l5Residue : Option (List Entry) :=
  match turn.l5Verdict flags pool with
  | .deliver mode =>
      if turn.l5Ids flags pool mode = none then turn.sideResidue flags pool
      else some (turn.deliverPrefill.remains [])
  | _ => turn.sideResidue flags pool

end L5

/-- What the last reset of the stage left in the cache, if it ever reset it. -/
def residue : Option (List Entry) :=
  match turn.l5Open with
  | none => turn.jaccardResidue
  | some (flags, pool) => (turn.l5Residue flags pool).or turn.jaccardResidue

/-- A lane delivers, or L5 declines, or the stage never reset the cache; the last clause
also admits a reset that happens to leave the prompt head itself. -/
def KeepsPrompt (head : List Entry) : Prop :=
  turn.JaccardDelivers ∨
    (∃ flags pool, turn.l5Open = some (flags, pool) ∧
      (turn.L5Delivers flags pool ∨ turn.L5Declines flags pool)) ∨
    ∀ left, turn.residue = some left → left = head

/-! ## Stage rules -/

theorem jaccardOffer_length {offer : Offer} (offered : turn.jaccardOffer = some offer) :
    2 ≤ offer.ids.length := by
  unfold jaccardOffer at offered
  simp only [Option.bind_eq_bind, Option.bind_eq_some_iff] at offered
  obtain ⟨tau, _, user, _, offered⟩ := offered
  split at offered
  next =>
    simp only [Option.bind_eq_some_iff, Option.pure_def, Option.some.injEq] at offered
    obtain ⟨ids, served, rfl⟩ := offered
    exact turn.template_length served
  next => simp at offered

theorem jaccardStage_delivers (delivers : turn.JaccardDelivers) (res : Residency) (last : Int) :
    (turn.jaccardStage (Synthesis.start res last)).recalled ≠ none ∧
      ∀ head other, Settled head other (turn.jaccardStage (Synthesis.start res last)) := by
  obtain ⟨offered, succeeds⟩ := delivers
  obtain ⟨offer, offered⟩ := Option.ne_none_iff_exists'.mp offered
  have stage : turn.jaccardStage (Synthesis.start res last) =
      { Synthesis.start res last with
        res := res.withEntries (minted offer.ids.dropLast)
        synLast := offer.ids.getLastD 0
        recalled := some (turn.recalledOf offer.pick)
        delivered := some offer.ids } := by
    simp [jaccardStage, offered, prefill_reset, succeeds, Synthesis.start]
  rw [stage]
  refine ⟨by simp, fun head other => ?_⟩
  apply settled_of_delivered (by simp) rfl (turn.jaccardOffer_length offered) rfl rfl

theorem jaccardStage_keeps (fails : ¬ turn.JaccardDelivers) (res : Residency) (last : Int) :
    turn.jaccardStage (Synthesis.start res last) =
      Synthesis.start (res.withEntries (turn.jaccardResidue.getD res.entries)) last := by
  unfold jaccardStage jaccardResidue
  cases offered : turn.jaccardOffer with
  | none => rfl
  | some offer =>
      have failed : turn.jaccardPrefill ≠ .ok := fun succeeds =>
        fails ⟨by simp [offered], succeeds⟩
      simp [prefill_reset, failed, Synthesis.start]

section L5

variable {flags : L5Flags} {pool : L5Pool} {syn : Synthesis}

theorem afterSidePasses_eq (flags : L5Flags) (pool : L5Pool) (res : Residency) :
    turn.afterSidePasses flags pool res =
      res.withEntries ((turn.sideResidue flags pool).getD res.entries) := by
  unfold afterSidePasses sideResidue
  cases turn.rerankPass flags pool with
  | some outcome => rfl
  | none =>
      cases turn.canonPass flags pool with
      | some outcome => rfl
      | none => rfl

theorem l5Finish_delivers (delivers : turn.L5Delivers flags pool) (head : List Entry) (last : Int) :
    Settled head last (turn.l5Finish flags pool syn) := by
  obtain ⟨mode, verdict, served, succeeds⟩ := delivers
  obtain ⟨ids, served⟩ := Option.ne_none_iff_exists'.mp served
  have length := turn.template_length served
  simp only [l5Finish, verdict, l5Deliver, served, prefill_reset, succeeds, if_true]
  exact settled_of_delivered (by simp) rfl length rfl rfl

theorem l5Finish_declines (declines : turn.L5Declines flags pool) (head : List Entry)
    (last : Int) : Settled head last (turn.l5Finish flags pool syn) := by
  obtain ⟨message, verdict⟩ := declines
  simp [l5Finish, verdict, Settled]

/-- Without a delivery or a decline the lane only changes the cache. -/
theorem l5Finish_keeps (undelivered : ¬ turn.L5Delivers flags pool)
    (undeclined : ¬ turn.L5Declines flags pool) (syn : Synthesis) :
    let next := turn.l5Finish flags pool
      { syn with res := turn.afterSidePasses flags pool syn.res }
    next.recalled = syn.recalled ∧ next.symbolicDecline = syn.symbolicDecline ∧
      next.synLast = syn.synLast ∧
      next.res.entries = (turn.l5Residue flags pool).getD syn.res.entries := by
  simp only [afterSidePasses_eq, l5Finish, l5Residue]
  cases verdict : turn.l5Verdict flags pool with
  | belowTau => exact ⟨rfl, rfl, rfl, rfl⟩
  | marginSkip => exact ⟨rfl, rfl, rfl, rfl⟩
  | decline message => exact absurd ⟨message, verdict⟩ undeclined
  | deliver mode =>
      cases served : turn.l5Ids flags pool mode with
      | none => simp [l5Deliver, served]
      | some ids =>
          have failed : turn.deliverPrefill ≠ .ok := fun succeeds =>
            undelivered ⟨mode, verdict, by simp [served], succeeds⟩
          simp [l5Deliver, served, prefill_reset, failed]

end L5

/-! ## The stage -/

theorem getD_eq_self_iff {α : Type} {found : Option α} {fallback : α} :
    found.getD fallback = fallback ↔ ∀ left, found = some left → left = fallback := by
  cases found with
  | none => simp
  | some value => simp

/-- The stage after a Jaccard lane that delivered nothing. -/
theorem l5Stage_settled_iff (fails : ¬ turn.JaccardDelivers) (res : Residency) (last : Int) :
    Settled res.entries last (turn.recallStage res last) ↔ turn.KeepsPrompt res.entries := by
  have afterJaccard := turn.jaccardStage_keeps fails res last
  unfold recallStage
  rw [afterJaccard]
  unfold KeepsPrompt residue l5Stage
  simp only [Synthesis.start, Option.isSome_none, Bool.false_eq_true, if_false, fails, false_or]
  cases opened : turn.l5Open with
  | none =>
      simp only [reduceCtorEq, false_and, exists_false, false_or]
      rw [← getD_eq_self_iff]
      exact settled_iff_entries rfl rfl
  | some lane =>
      obtain ⟨flags, pool⟩ := lane
      by_cases answered : turn.L5Delivers flags pool ∨ turn.L5Declines flags pool
      · refine iff_of_true ?_ (Or.inl ⟨flags, pool, rfl, answered⟩)
        rcases answered with delivers | declines
        · exact turn.l5Finish_delivers delivers _ _
        · exact turn.l5Finish_declines declines _ _
      · have unanswered := not_or.mp answered
        have elsewhere : ¬ ∃ flags' pool', some (flags, pool) = some (flags', pool') ∧
            (turn.L5Delivers flags' pool' ∨ turn.L5Declines flags' pool') := by
          rintro ⟨flags', pool', same, answered'⟩
          cases same
          exact answered answered'
        obtain ⟨recalled, declined, fed, entries⟩ :=
          turn.l5Finish_keeps unanswered.1 unanswered.2
            (Synthesis.start (res.withEntries (turn.jaccardResidue.getD res.entries)) last)
        simp only [elsewhere, false_or]
        rw [← getD_eq_self_iff, Option.getD_or]
        exact (fed ▸ settled_iff_entries recalled declined).trans (entries ▸ Iff.rfl)

/-- The stage leaves the prompt or a delivery for the synthesis exactly where it answers
or never resets the cache. -/
theorem recallStage_settled_iff (res : Residency) (last : Int) :
    Settled res.entries last (turn.recallStage res last) ↔ turn.KeepsPrompt res.entries := by
  by_cases delivers : turn.JaccardDelivers
  · obtain ⟨recalled, settled⟩ := turn.jaccardStage_delivers delivers res last
    refine iff_of_true ?_ (Or.inl delivers)
    rw [recallStage, l5Stage, if_pos (Option.isSome_iff_ne_none.mpr recalled)]
    exact settled _ _
  · exact turn.l5Stage_settled_iff delivers res last

end RecallTurn

/-! ## A margin skip behind a side pass -/

/-- A tokenizer whose every prompt is three ids and whose id 0 ends a turn. -/
def threeIds : TurnTokenizer where
  applyTemplateIds _ := some [5, 6, 7]
  turnStopIds := [0]
  suppressTokenIds := []
  decodeToken _ := []

def soundRun : SideRun where
  prefill := .ok
  step _ := .ok
  logits _ := []

def tiedEpisode (name : String) (text : Text) : Episode where
  name := name
  dir := ""
  npos := 0
  topic := []
  text := text
  sig := []
  gk := []
  gkNg := 0
  tokens := none
  l5key := [.finite 1]
  policy := none
  lifecycle := 0

def tiedFlags : L5Flags where
  qonly := false
  tauL5 := .finite (3 / 10)
  tauMargin := .finite (1 / 100)
  canonEps := .finite (1 / 100)
  rerankEps := .finite 0
  attrGate := false
  attrTau := .finite (1 / 2)
  memPolicy := false
  strict := false
  audit := false
  prompt := none

/-- Two memories with one key: the best two tie, CANON runs, and then the margin gate
drops the pick. -/
def tiedTurn : RecallTurn where
  tables := .ascii
  arith := .exact
  geo := .singleRow
  tokenizer := threeIds
  registry := [tiedEpisode "left" "The left code is 4.".toList,
    tiedEpisode "right" "The right code is 9.".toList]
  nightshift := []
  rawUser := some "What is the code?".toList
  origMsgs := none
  jaccard := none
  l5 := some tiedFlags
  jaccardPrefill := .ok
  globalQ := some [.finite 1]
  canonRun := soundRun
  rerankRun := soundRun
  deliverPrefill := .ok

def tiedPool : L5Pool where
  user := "What is the code?".toList
  scored :=
    [{ cos := .finite 1, name := "left", text := "The left code is 4.".toList, policy := none },
      { cos := .finite 1, name := "right", text := "The right code is 9.".toList, policy := none }]

theorem tiedTurn_l5Open : tiedTurn.l5Open = some (tiedFlags, tiedPool) := by
  have sorted : sortScored tiedPool.scored = tiedPool.scored :=
    List.mergeSort_of_pairwise (by decide)
  have scored : (l5Candidates tiedTurn.geo tiedFlags.audit tiedTurn.registry
      tiedTurn.nightshift).map (scoreEpisode tiedTurn.arith [.finite 1]) = tiedPool.scored := by
    decide +kernel
  have user : tiedTurn.user = some tiedPool.user := rfl
  have query : laneQuery tiedTurn.tables tiedTurn.arith tiedTurn.geo tiedFlags tiedPool.user
      tiedTurn.globalQ = [.finite 1] := by decide +kernel
  have pooled : tiedTurn.l5Pool tiedFlags = some tiedPool := by
    rw [RecallTurn.l5Pool, user, Option.bind_eq_bind, Option.bind_some]
    simp only [query, l5Scored, scored, sorted]
    rfl
  change (tiedTurn.l5Pool tiedFlags).bind (fun pool => some (tiedFlags, pool)) = _
  rw [pooled]
  rfl

def warmPrompt : Residency where
  entries := minted [1, 2]
  oneShot := false
  committed := []
  committedTag := ""
  prefixSnap := none
  rollSnap := none
  lastTailGap := 0
  modelTag := none

/-- No call fails, and the synthesis step feeds the prompt's last token to the side
pass's cache. -/
theorem marginSkip_leaves_side_prompt :
    (tiedTurn.recallStage warmPrompt 3).recalled = none ∧
      (tiedTurn.recallStage warmPrompt 3).symbolicDecline = none ∧
      (tiedTurn.recallStage warmPrompt 3).synLast = 3 ∧
      (tiedTurn.recallStage warmPrompt 3).res.entries = minted [5, 6, 7] ∧
      ¬ Settled warmPrompt.entries 3 (tiedTurn.recallStage warmPrompt 3) := by
  have ran : (tiedTurn.recallStage warmPrompt 3).recalled = none ∧
      (tiedTurn.recallStage warmPrompt 3).symbolicDecline = none ∧
      (tiedTurn.recallStage warmPrompt 3).synLast = 3 ∧
      (tiedTurn.recallStage warmPrompt 3).res.entries = minted [5, 6, 7] := by
    have run : tiedTurn.recallStage warmPrompt 3 = tiedTurn.l5Finish tiedFlags tiedPool
        { Synthesis.start warmPrompt 3 with
          res := tiedTurn.afterSidePasses tiedFlags tiedPool warmPrompt } := by
      rw [RecallTurn.recallStage, RecallTurn.l5Stage, tiedTurn_l5Open]
      rfl
    rw [run]
    decide +kernel
  obtain ⟨recalled, declined, fed, entries⟩ := ran
  refine ⟨recalled, declined, fed, entries, fun settled => ?_⟩
  rcases settled declined with ⟨_, kept, _⟩ | ⟨delivered, _⟩
  · rw [entries] at kept
    exact absurd kept (by decide)
  · exact delivered recalled

end KairosEngine.Daemon
