import Mathlib.Data.List.Basic
import KairosEngine.Daemon.PrefillReuseExact
import KairosEngine.Daemon.ResidentTurns

/-!
# What `KV_COMMITTED` describes over a run of requests

A turn trusts the committed list when the cache has its length.  The list stays true
along every run whose requests either describe the cache they leave or leave one that
the length check tells apart.
-/

namespace KairosEngine.Daemon

open KairosEngine.Library Residency

/-! ## The list that outlives a request -/

/-- The statics that say which list is trusted. -/
structure SameLedger (res next : Residency) : Prop where
  committed_eq : next.committed = res.committed
  tag_eq : next.committedTag = res.committedTag
  model_eq : next.modelTag = res.modelTag

namespace SameLedger

variable {first second third : Residency}

theorem refl (res : Residency) : SameLedger res res := ⟨rfl, rfl, rfl⟩

theorem trans (left : SameLedger first second) (right : SameLedger second third) :
    SameLedger first third :=
  ⟨right.committed_eq.trans left.committed_eq, right.tag_eq.trans left.tag_eq,
    right.model_eq.trans left.model_eq⟩

theorem withEntries (same : SameLedger first second) (entries : List Entry) :
    SameLedger first (second.withEntries entries) :=
  ⟨same.committed_eq, same.tag_eq, same.model_eq⟩

theorem tagOk_eq (same : SameLedger first second) : second.tagOk = first.tagOk := by
  rw [tagOk, tagOk, same.tag_eq, same.model_eq]

end SameLedger

/-- Calm, and no other list to trust. -/
structure Kept (res next : Residency) : Prop where
  calm : next.Calm
  ledger : SameLedger res next

theorem Kept.withEntries {res next : Residency} (kept : Kept res next) (entries : List Entry) :
    Kept res (next.withEntries entries) :=
  ⟨(calm_withEntries _ _).mpr kept.calm, kept.ledger.withEntries entries⟩

theorem kept_of_ends {res next : Residency} (kept : Kept res next)
    {attempt : Except Residency Residency} {entries : List Entry}
    (ends : Ends attempt (fun after => after = next.withEntries entries)
      (fun after => ∃ left, after = next.withEntries left)) :
    Ends attempt (Kept res) (Kept res) :=
  ends.mono (fun _ same => same ▸ kept.withEntries entries)
    (fun _ moved => moved.elim fun left same => same ▸ kept.withEntries left)

/-- The list is not consulted: it is empty, or another model's. -/
def Untrusted (res : Residency) : Prop := res.committed = [] ∨ res.tagOk = false

/-- Under the old list any cache will do that the length check tells apart. -/
theorem truthful_of_kept {res next : Residency} (same : SameLedger res next)
    (told : Untrusted res ∨ next.position ≠ res.committed.length ∨
      next.entries = minted res.committed) : next.CommittedTruthful := by
  intro trusted length
  rw [same.tagOk_eq] at trusted
  rw [same.committed_eq] at length ⊢
  rcases told with (empty | stale) | other | described
  · rw [empty] at length ⊢
    exact List.length_eq_zero_iff.mp length
  · rw [stale] at trusted
    cases trusted
  · exact absurd length other
  · exact described

theorem void_truthful (res : Residency) : (ChatTurn.void res).CommittedTruthful := by
  intro _ length
  exact List.length_eq_zero_iff.mp length

theorem void_calm {res : Residency} (calm : res.Calm) : (ChatTurn.void res).Calm :=
  ⟨calm.oneShot_off, calm.base_truthful, calm.roll_truthful⟩

/-! ## The prefill of a turn -/

namespace PrefillInput

variable (input : PrefillInput) {res : Residency} {fullHead : List Int} {prefillFrom : Nat}

/-- The first call of the per-token floor succeeds. -/
def FloorStarts (suffixLen split : Nat) : Prop :=
  if input.env.singleEntry = true then input.faults .inject = .ok
  else if 0 < split ∧ split < suffixLen then input.faults .headFirst = .ok
  else input.faults .head = .ok

/-- A lost insurance leaves an empty cache to a recovery that succeeds, or the prefix to
a floor that starts. -/
def RecoverySafe (fullHead : List Int) (prefillFrom split : Nat) (res : Residency) : Prop :=
  input.InsuranceLost fullHead prefillFrom split res →
    let left := (input.faults .insuranceRestore).remains []
    if input.faults .recoveryPrefill = .ok then
      left = []
    else
      input.FloorStarts (fullHead.drop prefillFrom).length split →
        (input.faults .recoveryPrefill).remains left = minted (fullHead.take prefillFrom)

theorem append_refused (calm : res.Calm) {verdict : Verdict} (failed : verdict ≠ .ok)
    (toks : List Int) : Ends (res.append verdict toks) (fun _ => False) Residency.Calm := by
  apply (append_serves verdict toks).mono
  · rintro next ⟨served, _⟩
    exact failed served
  · rintro left ⟨_, rfl⟩
    exact (calm_withEntries _ _).mpr calm

theorem perToken_unstarted (calm : res.Calm) (split : Nat)
    (unstarted : ¬ input.FloorStarts (fullHead.drop prefillFrom).length split) :
    Ends (input.perToken fullHead prefillFrom split res) (fun _ => False) Residency.Calm := by
  unfold FloorStarts at unstarted
  unfold perToken
  simp only
  split at unstarted
  next single =>
    rw [if_pos single]
    exact append_refused calm unstarted _
  next several =>
    rw [if_neg several]
    split at unstarted
    next halved =>
      rw [if_pos halved]
      apply Ends.bind (append_refused calm unstarted _)
      exact fun _ impossible => impossible.elim
    next whole =>
      rw [if_neg whole]
      exact append_refused calm unstarted _

/-- The section ends with the head in the cache, and calm on its error. -/
theorem prefillHead_safe (standing : Standing (fullHead.take prefillFrom) res)
    (bounded : prefillFrom ≤ fullHead.length)
    (safe : input.RecoverySafe fullHead prefillFrom
      (input.rollSplit (fullHead.length - prefillFrom) res.lastTailGap) res) :
    Ends (input.prefillHead fullHead prefillFrom res) (Standing fullHead) Residency.Calm := by
  have whole : fullHead.take prefillFrom ++ fullHead.drop prefillFrom = fullHead :=
    List.take_append_drop _ _
  generalize splitEq :
    input.rollSplit (fullHead.length - prefillFrom) res.lastTailGap = split at safe
  unfold prefillHead
  split
  next covered =>
    refine ⟨?_, standing.calm⟩
    rw [standing.entries_eq, ← whole, covered, List.append_nil, List.take_take, Nat.min_self]
  next =>
    simp only [splitEq]
    by_cases lost : input.InsuranceLost fullHead prefillFrom split res
    · obtain ⟨left, calm, entries, arm⟩ := warmBatch_lost input standing bounded lost
      have served := @append_serves left (input.faults .recoveryPrefill) fullHead
      have harmless := safe lost
      rw [← entries] at harmless
      rw [batchArms_lost input lost, arm]
      cases run : left.append (input.faults .recoveryPrefill) fullHead with
      | ok recovered =>
          rw [run] at served
          obtain ⟨succeeds, rfl⟩ := served
          rw [if_pos succeeds] at harmless
          refine ⟨?_, (calm_withEntries _ _).mpr calm⟩
          rw [withEntries_entries, harmless, List.nil_append]
      | error stopped =>
          rw [run] at served
          obtain ⟨fails, rfl⟩ := served
          rw [if_neg fails] at harmless
          have stoppedCalm := (calm_withEntries left
            ((input.faults .recoveryPrefill).remains left.entries)).mpr calm
          by_cases starts : input.FloorStarts (fullHead.drop prefillFrom).length split
          · exact perToken_standing input ⟨harmless starts, stoppedCalm⟩ split
          · exact (perToken_unstarted input stoppedCalm split starts).mono
              (fun _ impossible => impossible.elim) (fun _ calm => calm)
    · have arms := batchArms_insured input standing split lost
      split
      next next_ run =>
        rw [run] at arms
        exact arms
      next left run =>
        rw [run] at arms
        exact perToken_standing input arms split

/-- The last resort, if this turn reaches it, does no harm. -/
def PrefillSafe (tokens : List Int) (res : Residency) : Prop :=
  let reused := input.reuse tokens res
  let fullHead := reused.tokens.dropLast
  let prefillFrom := min reused.prefillFrom fullHead.length
  input.RecoverySafe fullHead prefillFrom
    (input.rollSplit (fullHead.length - prefillFrom) reused.res.lastTailGap) reused.res

theorem prefillPrompt_safe {tokens : List Int} (nonempty : tokens ≠ []) (calm : res.Calm)
    (truthful : res.CommittedTruthful) (safe : input.PrefillSafe tokens res) :
    Ends (input.prefillPrompt tokens res)
      (fun final => final.1 = (input.reuse tokens res).tokens ∧ final.1 ≠ [] ∧
        Standing final.1.dropLast final.2) Residency.Calm := by
  have agrees := reuse_agrees input calm truthful nonempty
  unfold PrefillSafe at safe
  unfold prefillPrompt
  simp only at safe ⊢
  generalize input.reuse tokens res = reused at agrees safe ⊢
  have bounded : reused.prefillFrom ≤ reused.tokens.dropLast.length := by
    rw [List.length_dropLast]
    exact agrees.bounded
  have standing : Standing (reused.tokens.dropLast.take reused.prefillFrom) reused.res := by
    rw [List.dropLast_eq_take, List.take_take, Nat.min_eq_left agrees.bounded]
    exact agrees.standing
  rw [Nat.min_eq_left bounded] at safe ⊢
  have ends := prefillHead_safe input standing bounded safe
  split
  next next_ run =>
    rw [run] at ends
    exact ⟨rfl, agrees.nonempty, ends⟩
  next left run =>
    rw [run] at ends
    exact ends

/-! A turn without `persist_kv` starts over and keeps the list. -/

theorem reuse_unarmed (unarmed : input.env.persistKv = false) (calm : res.Calm)
    (tokens : List Int) :
    (input.reuse tokens res).tokens = tokens ∧ (input.reuse tokens res).prefillFrom = 0 ∧
      Kept res (input.reuse tokens res).res := by
  have start : Kept res res := ⟨calm, SameLedger.refl res⟩
  unfold reuse
  simp only [unarmed, Bool.false_eq_true, false_and, if_false, true_and]
  split
  next => exact ⟨rfl, rfl, start.withEntries []⟩
  next => exact ⟨rfl, rfl, start⟩

theorem rollCapture_ledger (bytes snapshot : Site) (toks : List Int) :
    SameLedger res (input.rollCapture bytes snapshot toks res) := by
  unfold rollCapture
  repeat' split
  all_goals exact ⟨rfl, rfl, rfl⟩

theorem ledger_of_ends {next : Residency} (same : SameLedger res next)
    {attempt : Except Residency Residency} {entries : List Entry}
    (ends : Ends attempt (fun after => after = next.withEntries entries)
      (fun after => ∃ left, after = next.withEntries left)) :
    Ends attempt (SameLedger res) (SameLedger res) :=
  ends.mono (fun _ moved => moved ▸ same.withEntries entries)
    (fun _ moved => moved.elim fun left moved => moved ▸ same.withEntries left)

theorem coldBatch_ledger (calm : res.Calm) (head : List Int) :
    Ends (input.coldBatch head res) (SameLedger res) (SameLedger res) := by
  have start : Kept res res := ⟨calm, SameLedger.refl res⟩
  have first := kept_of_ends start
    (@prefillBatched_ends res (input.faults .coldBatch) input.env.enginePersist head)
  unfold coldBatch
  split
  next next_ run =>
    rw [run] at first
    exact first.ledger
  next left run =>
    rw [run] at first
    have attempt : Ends (do
        let built ← asOneShot (prefillBatched input.env.enginePersist
          (input.faults .coldBatchOneShot) head) left
        input.roundTrip .coldBytes .coldSnapshot .coldRestore head.length built)
        (SameLedger res) (SameLedger res) := by
      apply Ends.bind (ledger_of_ends first.ledger
        (oneShotBatch_ends first.calm.oneShot_off _ _ head))
      intro built kept
      exact (roundTrip_ends input _ _ _ _).mono (fun _ same => same ▸ kept)
        (fun _ moved => moved.elim fun left moved => moved ▸ kept.withEntries left)
    simp only
    split
    next next_ run =>
      rw [run] at attempt
      exact attempt
    next left run =>
      rw [run] at attempt
      exact attempt.withEntries []

theorem perToken_ledger {next : Residency} (kept : SameLedger res next) (split : Nat) :
    Ends (input.perToken fullHead prefillFrom split next) (SameLedger res) (SameLedger res) := by
  unfold perToken
  simp only
  split
  next => exact ledger_of_ends kept (append_ends _)
  next =>
    split
    next =>
      apply Ends.bind (ledger_of_ends kept (append_ends _))
      intro first firstKept
      exact ledger_of_ends (firstKept.trans (rollCapture_ledger input _ _ _)) (append_ends _)
    next => exact ledger_of_ends kept (append_ends _)

theorem prefillHead_ledger (calm : res.Calm) :
    Ends (input.prefillHead fullHead 0 res) (SameLedger res) (SameLedger res) := by
  have cold := coldBatch_ledger input calm fullHead
  have unwanted : input.wantBatchCont 0 fullHead.length = false := by
    rw [Bool.eq_false_iff]
    exact fun wanted => absurd (wantBatchContGated_warm wanted).1 (Nat.lt_irrefl 0)
  unfold prefillHead batchArms
  simp only [Nat.sub_zero, unwanted, Bool.false_eq_true, if_false, List.drop_zero]
  split
  next => exact SameLedger.refl res
  next =>
    by_cases wanted : input.wantBatch 0 fullHead.length = true
    · rw [if_pos wanted]
      cases run : input.coldBatch fullHead res with
      | ok next_ =>
          rw [run] at cold
          exact cold
      | error left =>
          rw [run] at cold
          exact perToken_ledger input cold _
    · rw [if_neg wanted]
      exact perToken_ledger input (SameLedger.refl res) _

theorem prefillPrompt_unarmed (unarmed : input.env.persistKv = false) (calm : res.Calm)
    (tokens : List Int) : Ends (input.prefillPrompt tokens res)
      (fun final => final.1 = tokens ∧ SameLedger res final.2) (fun _ => True) := by
  obtain ⟨prompt, start, kept⟩ := reuse_unarmed input unarmed calm tokens
  unfold prefillPrompt
  simp only
  generalize input.reuse tokens res = reused at prompt start kept ⊢
  have head := @prefillHead_ledger input reused.res reused.tokens.dropLast kept.calm
  rw [start, Nat.zero_min]
  split
  next next_ run =>
    rw [run] at head
    exact ⟨prompt, kept.ledger.trans head⟩
  next => trivial

end PrefillInput

/-! ## The end of a turn -/

theorem extend_ends (verdict : Verdict) (added entries : List Entry) :
    Ends (extend verdict added entries) (fun next => next = entries ++ added) (fun _ => True) := by
  cases verdict with
  | ok => exact rfl
  | refuse => trivial
  | spoil left => trivial

namespace ChatTurn

variable (turn : ChatTurn)

/-- A thought that fails midway may leave any cache. -/
def ThoughtsClean : Prop := ∀ left, Verdict.spoil left ∉ turn.thoughts

theorem think_appends {thoughts : List Verdict} (clean : ∀ left, Verdict.spoil left ∉ thoughts)
    (entries : List Entry) : ∃ count,
      think entries thoughts = entries ++ List.replicate count (Entry.frame 0) := by
  induction thoughts generalizing entries with
  | nil => exact ⟨0, by simp [think]⟩
  | cons verdict rest inductionHypothesis =>
      have cleanRest : ∀ left, Verdict.spoil left ∉ rest := fun left later =>
        clean left (List.mem_cons_of_mem _ later)
      cases verdict with
      | ok =>
          obtain ⟨count, thought⟩ := inductionHypothesis cleanRest (entries ++ [.frame 0])
          exact ⟨count + 1, by simp [think, extend, thought, List.replicate_succ]⟩
      | refuse => exact ⟨0, by simp [think, extend, Verdict.remains]⟩
      | spoil left => exact absurd List.mem_cons_self (clean left)

/-- A clean decode loop feeds exactly the tokens it reports. -/
theorem decodeLoop_feeds (budget index : Nat) (so : Decoded) :
    Ends (turn.decodeLoop budget index so)
      (fun out => out.dirty = false → so.dirty = false ∧
        ∃ fed, out.gen = so.gen ++ fed ∧ out.entries = so.entries ++ minted fed)
      (fun _ => True) := by
  have nothing : so.dirty = false → so.dirty = false ∧
      ∃ fed, so.gen = so.gen ++ fed ∧ so.entries = so.entries ++ minted fed :=
    fun clean => ⟨clean, [], by simp, by simp [minted]⟩
  induction budget generalizing index so with
  | zero => exact nothing
  | succ budget inductionHypothesis =>
      unfold decodeLoop
      simp only
      split
      next => exact nothing
      next =>
        cases turn.emit index with
        | clientGone => trivial
        | stopped => exact nothing
        | streamed =>
            have appended := extend_ends (turn.step index) (minted [turn.sampled index]) so.entries
            simp only
            cases run : extend (turn.step index) (minted [turn.sampled index]) so.entries with
            | error left => exact fun dirty => by cases dirty
            | ok entries =>
                rw [run] at appended
                cases appended
                refine (inductionHypothesis (index + 1) _ ?_).mono ?_ (fun _ _ => trivial)
                · exact fun clean => ⟨clean, [], by simp, by simp [minted]⟩
                · intro out fed clean
                  obtain ⟨started, more, gen, entries⟩ := fed clean
                  refine ⟨started, turn.sampled index :: more, ?_, ?_⟩
                  · rw [gen, List.append_assoc]
                    rfl
                  · rw [entries, List.append_assoc, minted, minted, ← List.map_append]
                    rfl

/-- A recall stage that recalls and declines nothing leaves this prompt alone. -/
def QuietRecall (last : Int) (warm : List Entry) : Prop :=
  (turn.recallStage last warm).recalled = false → (turn.recallStage last warm).declined = false →
    (turn.recallStage last warm).entries = warm ∧ (turn.recallStage last warm).synLast = last

theorem persistKv_excludes (persist : turn.persistKv = true) :
    turn.injectFrames = none ∧ turn.replay = none ∧ turn.flags.decide = false := by
  simp only [persistKv, PrefillEnv.persistKv, prefillInput, persistArmed, Bool.and_eq_true,
    Option.isNone_iff_eq_none, Bool.not_eq_true'] at persist
  exact ⟨persist.1.1.1.1.1.1.1.2, persist.1.1.1.1.1.1.1.1.2, persist.1.1.1.1.1.1.2⟩

theorem minted_prompt {prompt : List Int} (nonempty : prompt ≠ []) :
    minted prompt.dropLast ++ minted [prompt.getLastD 0] = minted prompt := by
  obtain ⟨init, last, rfl⟩ := (List.eq_nil_or_concat prompt).resolve_left nonempty
  rw [List.concat_eq_append, List.getLastD_concat, List.dropLast_concat, minted, minted, minted, ← List.map_append]

/-- A persisted turn that recalls nothing ends with its prompt, its thoughts and its reply. -/
theorem finish_persist (persist : turn.persistKv = true) {prompt : List Int}
    (nonempty : prompt ≠ [])
    (quiet : turn.QuietRecall (prompt.getLastD 0) (minted prompt.dropLast))
    (clean : turn.ThoughtsClean) :
    Ends (turn.finish (prompt.getLastD 0) (minted prompt.dropLast))
      (fun ended => ended.recalled = false → ended.decoded.dirty = false →
        ∃ count, ended.decoded.entries =
          minted prompt ++ List.replicate count (Entry.frame 0) ++ minted ended.decoded.gen)
      (fun _ => True) := by
  obtain ⟨noFrames, noReplay, noDecide⟩ := turn.persistKv_excludes persist
  unfold finish injectStage replayStage
  simp only [noFrames, noReplay, noDecide, Bool.false_and, bind, Except.bind]
  unfold QuietRecall at quiet
  generalize turn.recallStage (prompt.getLastD 0) (minted prompt.dropLast) = ended at quiet ⊢
  split
  next => trivial
  next =>
    split
    next => trivial
    next undeclined =>
      have appended := extend_ends turn.synStep (minted [ended.synLast]) ended.entries
      cases step : extend turn.synStep (minted [ended.synLast]) ended.entries with
      | error left => trivial
      | ok fed =>
          rw [step] at appended
          cases appended
          obtain ⟨count, thought⟩ := think_appends clean (ended.entries ++ minted [ended.synLast])
          have feeds := turn.decodeLoop_feeds turn.maxTokens 0
            { entries := think (ended.entries ++ minted [ended.synLast]) turn.thoughts
              gen := [], dirty := false }
          simp only
          cases loop : turn.decodeLoop turn.maxTokens 0
              { entries := think (ended.entries ++ minted [ended.synLast]) turn.thoughts
                gen := [], dirty := false } with
          | error left => trivial
          | ok out =>
              rw [loop] at feeds
              intro unrecalled clean
              obtain ⟨_, fed, gen, entries⟩ := feeds clean
              obtain ⟨kept, last⟩ := quiet unrecalled (Bool.eq_false_iff.mpr undeclined)
              refine ⟨count, ?_⟩
              simp only [Bool.false_eq_true, if_false]
              rw [entries, thought, kept, last, minted_prompt nonempty, gen, List.nil_append]

/-- When a turn that reaches the cache keeps the list true.  With `persist_kv` it must
describe the cache it leaves; without it the old list stands over the new cache, and the
number of positions has to tell them apart. -/
structure Sound (res : Residency) : Prop where
  prefill : turn.prefillInput.PrefillSafe turn.tokens res
  described : turn.persistKv = true →
    let prompt := (turn.prefillInput.reuse turn.tokens res).tokens
    turn.ThoughtsClean ∧ turn.QuietRecall (prompt.getLastD 0) (minted prompt.dropLast)
  told : turn.persistKv = false → Untrusted res ∨
    ∀ ended, turn.finish (turn.tokens.getLastD 0) (minted turn.tokens.dropLast) = .ok ended →
      ended.decoded.entries.length ≠ res.committed.length ∨
        ended.decoded.entries = minted res.committed

end ChatTurn

/-- The invariant: the statics are in order and the trusted list is true. -/
structure InOrder (res : Residency) : Prop where
  calm : res.Calm
  truthful : res.CommittedTruthful

namespace ChatTurn

variable (turn : ChatTurn)

theorem void_inOrder {res : Residency} (calm : res.Calm) : InOrder (void res) :=
  ⟨void_calm calm, void_truthful res⟩

/-- The commit of a cache that holds the prompt, some thoughts and the reply. -/
theorem commit_truthful (persist : turn.persistKv = true) (prompt : List Int) (ended : TurnEnd)
    (res : Residency)
    (holds : ended.recalled = false → ended.decoded.dirty = false → ∃ count,
      ended.decoded.entries =
        minted prompt ++ List.replicate count (Entry.frame 0) ++ minted ended.decoded.gen) :
    (turn.commit prompt ended (res.withEntries ended.decoded.entries)).CommittedTruthful := by
  intro _ length
  unfold commit at length ⊢
  rw [if_pos persist] at length ⊢
  by_cases clean : (!ended.recalled && !ended.decoded.dirty) = true
  · simp only [clean, if_true] at length ⊢
    rw [Bool.and_eq_true, Bool.not_eq_true', Bool.not_eq_true'] at clean
    obtain ⟨count, entries⟩ := holds clean.1 clean.2
    have none : count = 0 := by
      simp only [Residency.position, withEntries_entries, entries, List.length_append,
        List.length_map, List.length_replicate] at length
      omega
    rw [withEntries_entries, entries, none, List.replicate_zero, List.append_nil, minted, minted,
      minted, ← List.map_append]
  · simp only [clean, Bool.false_eq_true, if_false] at length ⊢
    exact List.length_eq_zero_iff.mp length

theorem commit_calm (prompt : List Int) (ended : TurnEnd) {res : Residency} (calm : res.Calm) :
    (turn.commit prompt ended res).Calm := by
  unfold commit
  split
  next => exact ⟨calm.oneShot_off, calm.base_truthful, calm.roll_truthful⟩
  next => exact calm

/-- The turn gets as far as the committed-prefix guard. -/
def Reaches : Prop :=
  turn.delegated = false ∧ turn.tokens ≠ [] ∧
    turn.byteexact.any (fun verdict => decide (verdict ≠ .ok)) = false

theorem run_inOrder {res : Residency} (order : InOrder res)
    (sound : turn.Reaches → turn.Sound res) : InOrder (turn.run res) := by
  unfold run
  split
  next => exact order
  next started =>
    have nonempty : turn.tokens ≠ [] := fun empty => started (Or.inr empty)
    split
    next => exact void_inOrder order.calm
    next exact_ =>
      replace sound := sound ⟨Bool.eq_false_iff.mpr fun away => started (Or.inl away), nonempty,
        Bool.eq_false_iff.mpr exact_⟩
      have ends := turn.prefillInput.prefillPrompt_safe nonempty order.calm order.truthful
        sound.prefill
      cases prefilled : turn.prefillInput.prefillPrompt turn.tokens res with
      | error left =>
          rw [prefilled] at ends
          exact void_inOrder ends
      | ok final =>
          rw [prefilled] at ends
          obtain ⟨prompt, promptLeft, standing⟩ := ends
          simp only
          cases finished : turn.finish (final.1.getLastD 0) final.2.entries with
          | error left => exact void_inOrder ((calm_withEntries _ _).mpr standing.calm)
          | ok ended =>
              refine ⟨turn.commit_calm _ _ ((calm_withEntries _ _).mpr standing.calm), ?_⟩
              rw [standing.entries_eq] at finished
              by_cases persist : turn.persistKv = true
              · obtain ⟨clean, quiet⟩ := sound.described persist
                simp only [← prompt] at quiet
                have holds := turn.finish_persist persist promptLeft quiet clean
                rw [finished] at holds
                exact turn.commit_truthful persist final.1 ended final.2 holds
              · have unarmed : turn.persistKv = false := Bool.eq_false_iff.mpr persist
                have ledger := turn.prefillInput.prefillPrompt_unarmed unarmed order.calm
                  turn.tokens
                rw [prefilled] at ledger
                obtain ⟨same, kept⟩ := ledger
                rw [same] at finished
                simp only [commit, persist]
                exact truthful_of_kept (kept.withEntries _)
                  ((sound.told unarmed).imp_right fun told => told ended finished)

end ChatTurn

/-! ## The debug routes -/

section Debug

variable {res : Residency}

theorem query_ends (verdict : Verdict) :
    Ends (query verdict res) (fun _ => True) (fun left => verdict ≠ .ok ∧ left = res) := by
  unfold query
  split
  next => trivial
  next failed => exact ⟨failed, rfl⟩

theorem snapshotPrefix_fails (verdict : Verdict) {toks : List Int}
    (holds : res.entries = minted toks) :
    Ends (res.snapshotPrefix verdict toks.length) (fun _ => True)
      (fun left => verdict ≠ .ok ∧ left = res) := by
  have here : res.position = toks.length := by rw [Residency.position, holds, List.length_map]
  unfold snapshotPrefix
  split
  next => trivial
  next failed => exact ⟨fun served => failed ⟨served, here⟩, rfl⟩

theorem append_fails {next : Residency} (kept : Kept res next) (verdict : Verdict)
    (toks : List Int) :
    Ends (next.append verdict toks)
      (fun after => Kept res after ∧ after.entries = next.entries ++ minted toks)
      (fun left => verdict ≠ .ok ∧ Kept res left) := by
  apply (PrefillInput.append_serves verdict toks).mono
  · rintro after ⟨_, rfl⟩
    exact ⟨kept.withEntries _, rfl⟩
  · rintro left ⟨failed, rfl⟩
    exact ⟨failed, kept.withEntries _⟩

/-- A one-shot batch on a cold cache is only declined by its own failure. -/
theorem oneShotBatch_fails {cold : Residency} (kept : Kept res cold) (empty : cold.entries = [])
    (enginePersist : Bool) (verdict : Verdict) (toks : List Int) :
    Ends (PrefillInput.asOneShot (prefillBatched enginePersist verdict toks) cold)
      (fun after => Kept res after ∧ after.entries = minted toks)
      (fun left => verdict ≠ .ok ∧ Kept res left) := by
  have batched : (cold.setOneshot true).prefillBatched enginePersist verdict toks =
      (cold.setOneshot true).append verdict toks := by
    rw [prefillBatched, if_neg]
    simp [Residency.position, setOneshot, empty]
  have cleared : ∀ left, ((cold.setOneshot true).withEntries left).setOneshot false =
      cold.withEntries left := by
    intro left
    simp only [setOneshot, Residency.withEntries, ← kept.calm.oneShot_off]
  have served := @PrefillInput.append_serves (cold.setOneshot true) verdict toks
  unfold PrefillInput.asOneShot
  rw [batched]
  cases run : (cold.setOneshot true).append verdict toks with
  | ok after =>
      rw [run] at served
      obtain ⟨_, rfl⟩ := served
      simp only [cleared]
      refine ⟨kept.withEntries _, ?_⟩
      rw [withEntries_entries]
      simp [setOneshot, empty]
  | error left =>
      rw [run] at served
      obtain ⟨failed, rfl⟩ := served
      simp only [cleared]
      exact ⟨failed, kept.withEntries _⟩

theorem batchedFrom_fails {first : Residency} (kept : Kept res first) (enginePersist : Bool)
    (verdict : Verdict) (toks : List Int) (warm : 0 < first.position) :
    Ends (first.prefillBatchedFrom enginePersist verdict toks first.position)
      (fun after => Kept res after ∧ after.entries = first.entries ++ minted toks)
      (fun left => verdict ≠ .ok ∧ Kept res left) := by
  have accepted : first.prefillBatchedFrom enginePersist verdict toks first.position =
      first.append verdict toks := by
    rw [prefillBatchedFrom, if_neg]
    rintro (moved | cold)
    · exact moved rfl
    · exact absurd cold.1 (Nat.ne_of_gt warm)
  rw [accepted]
  exact append_fails kept verdict toks

theorem inOrder_of_kept {next : Residency} (kept : Kept res next)
    (told : Untrusted res ∨ next.position ≠ res.committed.length ∨
      next.entries = minted res.committed) : InOrder next :=
  ⟨kept.calm, truthful_of_kept kept.ledger told⟩

/-- An empty cache is told apart from every list but the empty one. -/
theorem told_of_empty {next : Residency} (empty : next.entries = []) :
    Untrusted res ∨ next.position ≠ res.committed.length ∨
      next.entries = minted res.committed := by
  by_cases none : res.committed = []
  · exact Or.inl (Or.inl none)
  · refine Or.inr (Or.inl fun length => none ?_)
    rw [Residency.position, empty] at length
    exact List.length_eq_zero_iff.mp length.symm

/-- A `kdiff` whose calls succeed, or that finds no list to contradict. -/
def KdiffRequest.Sound (request : KdiffRequest) (res : Residency) : Prop :=
  request.toks.filter (fun toks => decide (2 ≤ toks.length)) = none ∨ Untrusted res ∨
    (request.prefill = .ok ∧ request.readK = .ok)

theorem KdiffRequest.run_inOrder (request : KdiffRequest) (order : InOrder res)
    (sound : request.Sound res) : InOrder (request.run res) := by
  have start : Kept res res.reset := ⟨(calm_reset res).mpr order.calm, ⟨rfl, rfl, rfl⟩⟩
  unfold KdiffRequest.Sound at sound
  unfold KdiffRequest.run
  split
  next => exact order
  next toks served =>
    rw [served] at sound
    have through := sound.resolve_left (by simp)
    have attempt : Ends (do
        let filled ← res.reset.prefill request.prefill toks
        let _ ← query request.readK filled
        return filled.reset)
        (fun next => Kept res next ∧ next.entries = [])
        (fun left => Kept res left ∧ ¬ (request.prefill = .ok ∧ request.readK = .ok)) := by
      apply Ends.bind ((append_fails start request.prefill toks).mono (fun _ done => done)
        (fun _ failed => ⟨failed.2, fun all => failed.1 all.1⟩))
      rintro filled ⟨kept, _⟩
      apply Ends.bind ((query_ends request.readK).mono (fun _ done => done)
        (fun _ failed => ⟨failed.2 ▸ kept, fun all => failed.1 all.2⟩))
      exact fun _ _ => ⟨kept.withEntries [], rfl⟩
    simp only
    split
    next next_ run =>
      rw [run] at attempt
      exact inOrder_of_kept attempt.1 (told_of_empty attempt.2)
    next left run =>
      rw [run] at attempt
      exact inOrder_of_kept attempt.1 (Or.inl (through.resolve_right attempt.2))

namespace KvdiffRequest

variable (request : KvdiffRequest)

/-- Every call succeeds. -/
def Through : Prop := (∀ site, request.faults site = .ok) ∧ request.panics = false

/-- A `kvdiff_batch` that runs through leaves its own tokens, and nothing clears the list. -/
def Sound (res : Residency) : Prop :=
  request.toks = [] ∨ Untrusted res ∨
    (request.Through ∧ (request.sameShape = true →
      request.toks.length ≠ res.committed.length ∨ request.toks = res.committed))

theorem secondPath_ends {cold : Residency} (kept : Kept res cold) (empty : cold.entries = [])
    (nonempty : request.toks ≠ []) (steady : request.panics = false) (prefill batch : KvdiffSite) :
    Ends (request.secondPath prefill batch cold)
      (fun next => Kept res next ∧ next.entries = minted request.toks)
      (fun left => Kept res left ∧ ¬ request.Through) := by
  have broken : ∀ {site left}, request.faults site ≠ .ok ∧ Kept res left →
      Kept res left ∧ ¬ request.Through :=
    fun failed => ⟨failed.2, fun through => failed.1 (through.1 _)⟩
  unfold secondPath
  split
  next =>
    apply (append_fails kept _ _).mono
    · rintro next ⟨kept, entries⟩
      exact ⟨kept, by rw [entries, empty, List.nil_append]⟩
    · exact fun _ failed => broken failed
  next split mode =>
    simp only
    generalize cut : max 1 (min (split.getD (request.toks.length / 2)) (request.toks.length - 1))
      = at_
    have several : 2 ≤ request.toks.length := by
      have positive := List.length_pos_of_ne_nil nonempty
      have notOne : request.toks.length ≠ 1 := by
        simpa [panics, mode] using steady
      omega
    have inside : 0 < at_ ∧ at_ ≤ request.toks.length := by omega
    apply Ends.bind ((append_fails kept _ _).mono (fun _ done => done)
      (fun _ failed => broken failed))
    rintro first ⟨kept, entries⟩
    have here : first.position = at_ := by
      rw [Residency.position, entries, empty, List.nil_append, List.length_map, List.length_take,
        Nat.min_eq_left inside.2]
    have batched := batchedFrom_fails kept request.enginePersist (request.faults batch)
      (request.toks.drop at_) (here ▸ inside.1)
    rw [here] at batched
    apply batched.mono
    · rintro next ⟨kept, appended⟩
      refine ⟨kept, ?_⟩
      rw [appended, entries, empty, List.nil_append, minted, minted, ← List.map_append,
        List.take_append_drop]
    · exact fun _ failed => broken failed
  next =>
    exact (oneShotBatch_fails kept empty _ _ _).mono (fun _ done => done)
      (fun _ failed => broken failed)

theorem attempt_ends (order : InOrder res) (nonempty : request.toks ≠ []) :
    Ends (request.attempt res)
      (fun next => Kept res next ∧
        next.entries = if request.sameShape then minted request.toks else [])
      (fun left => Kept res left ∧ ¬ request.Through) := by
  have start : Kept res res.reset := ⟨(calm_reset res).mpr order.calm, ⟨rfl, rfl, rfl⟩⟩
  have broken : ∀ {site left}, request.faults site ≠ .ok → Kept res left →
      Kept res left ∧ ¬ request.Through :=
    fun failed kept => ⟨kept, fun through => failed (through.1 _)⟩
  have refilled : ∀ {cold : Residency} (site : KvdiffSite), Kept res cold → cold.entries = [] →
      Ends (cold.prefill (request.faults site) request.toks)
        (fun next => Kept res next ∧ next.entries = minted request.toks)
        (fun left => Kept res left ∧ ¬ request.Through) := by
    intro cold site kept empty
    apply (append_fails kept _ _).mono
    · rintro next ⟨kept, entries⟩
      exact ⟨kept, by rw [entries, empty, List.nil_append]⟩
    · exact fun _ failed => broken failed.1 failed.2
  have asked : ∀ {next : Residency} (site : KvdiffSite), Kept res next →
      Ends (query (request.faults site) next) (fun _ => True)
        (fun left => Kept res left ∧ ¬ request.Through) := fun site kept =>
    (query_ends _).mono (fun _ done => done) (fun _ failed => broken failed.1 (failed.2 ▸ kept))
  have copied : ∀ {next : Residency} (site : KvdiffSite), Kept res next →
      next.entries = minted request.toks →
      Ends (next.snapshotPrefix (request.faults site) request.toks.length) (fun _ => True)
        (fun left => Kept res left ∧ ¬ request.Through) := fun site kept holds =>
    (snapshotPrefix_fails _ holds).mono (fun _ done => done)
      (fun _ failed => broken failed.1 (failed.2 ▸ kept))
  unfold attempt
  apply Ends.bind (refilled .prefillA start rfl)
  rintro first ⟨kept, entries⟩
  apply Ends.bind (asked .bytesA kept)
  intro _ _
  apply Ends.bind (copied .snapshotA kept entries)
  intro _ _
  by_cases panics : request.panics = true
  · rw [if_pos panics]
    exact ⟨kept, fun through => by rw [through.2] at panics; cases panics⟩
  · have steady := Bool.eq_false_iff.mpr panics
    rw [if_neg panics]
    apply Ends.bind (request.secondPath_ends (kept.withEntries []) rfl nonempty steady _ _)
    rintro second ⟨kept, entries⟩
    apply Ends.bind (asked .bytesB kept)
    intro _ _
    apply Ends.bind (copied .snapshotB kept entries)
    intro _ _
    by_cases shape : request.sameShape = true
    · simp only [shape, Bool.not_true, Bool.false_eq_true, if_false, if_true]
      apply Ends.bind (asked .globalKvd (kept.withEntries []))
      intro _ _
      apply Ends.bind (refilled .prefillAgainA (kept.withEntries []) rfl)
      rintro again ⟨kept, _⟩
      apply Ends.bind (asked .readA kept)
      intro _ _
      apply Ends.bind (request.secondPath_ends (kept.withEntries []) rfl nonempty steady _ _)
      rintro last ⟨kept, entries⟩
      apply Ends.bind (asked .readB kept)
      exact fun _ _ => ⟨kept, entries⟩
    · simp only [shape, Bool.not_false, if_true, Bool.false_eq_true, if_false]
      exact ⟨kept.withEntries [], rfl⟩

theorem run_inOrder (order : InOrder res) (sound : request.Sound res) :
    InOrder (request.run res) := by
  unfold run
  split
  next => exact order
  next nonempty =>
    have through := sound.resolve_left nonempty
    have attempt := request.attempt_ends order nonempty
    split
    next next_ run =>
      rw [run] at attempt
      obtain ⟨kept, entries⟩ := attempt
      refine inOrder_of_kept kept ?_
      by_cases shape : request.sameShape = true
      · rw [if_pos shape] at entries
        refine through.imp_right fun told => ?_
        rw [Residency.position, entries, List.length_map]
        exact (told.2 shape).imp_right fun same => by rw [same]
      · rw [if_neg shape] at entries
        exact told_of_empty entries
    next left run =>
      rw [run] at attempt
      exact inOrder_of_kept attempt.1
        (Or.inl (through.resolve_right fun all => attempt.2 all.1))

end KvdiffRequest

end Debug

/-! ## Runs -/

/-- The daemon before its first request. -/
def boot (modelTag : Option String) : Residency where
  entries := []
  oneShot := false
  committed := []
  committedTag := ""
  prefixSnap := none
  rollSnap := none
  lastTailGap := 0
  modelTag := modelTag

theorem boot_inOrder (modelTag : Option String) : InOrder (boot modelTag) where
  calm := ⟨rfl, fun _ absent => (by cases absent), fun _ absent => (by cases absent)⟩
  truthful _ _ := rfl

def ResidentRequest.Sound (request : ResidentRequest) (res : Residency) : Prop :=
  match request with
  | .chat turn => turn.Reaches → turn.Sound res
  | .kdiff request => request.Sound res
  | .kvdiffBatch request => request.Sound res

theorem ResidentRequest.serve_inOrder (request : ResidentRequest) (res : Residency)
    (sound : request.Sound res) (order : InOrder res) : InOrder (request.serve res) := by
  cases request with
  | chat turn => exact turn.run_inOrder order sound
  | kdiff request => exact request.run_inOrder order sound
  | kvdiffBatch request => exact request.run_inOrder order sound

/-- Along a run of sound requests the committed list is true in every state. -/
theorem committed_truthful {modelTag : Option String} {requests : List ResidentRequest}
    (sound : GuardedRun ResidentRequest.serve ResidentRequest.Sound requests (boot modelTag))
    (count : Nat) :
    (serveAll ResidentRequest.serve (requests.take count) (boot modelTag)).CommittedTruthful :=
  ((sound.take count).preserves ResidentRequest.serve_inOrder (boot_inOrder modelTag)).truthful

/-- A turn on which nothing fails and nothing is recalled. -/
def plainTurn (singleEntry : Bool) (tokens reply : List Int) : ChatTurn where
  flags :=
    { persistKv := true, decide := false, forget := false, nightshift := false
      persistB4 := false, judge := false, disposer := false, int2 := false }
  input :=
    { env :=
        { persistArmed := true, singleEntry, enginePersist := true, reseam := false
          prefixSnapshot := false, rollSnapshot := false, prefillBatch := false
          batchCont := false, batchSuffix := false
          jmax := none, rewindBound := none, rollMin := none, rollMargin := none }
      decode := fun _ => []
      faults := fun _ => .ok }
  tokens := tokens
  delegated := false
  byteexact := none
  injectFrames := none
  recallStage last warm := { entries := warm, synLast := last, recalled := false, declined := false }
  replay := none
  logitsFit := true
  synStep := .ok
  thoughts := []
  maxTokens := reply.length
  sampled index := reply.getD index 0
  stopIds := []
  emit _ := .streamed
  step _ := .ok
  decidePass := false

theorem plainTurn_sound (tokens reply : List Int) (res : Residency) :
    (plainTurn false tokens reply).Sound res where
  prefill lost := by
    have wanted := lost.1
    simp [PrefillInput.wantBatchCont, wantBatchContGated, plainTurn, ChatTurn.prefillInput]
      at wanted
  described _ := ⟨fun _ => List.not_mem_nil, fun _ _ => ⟨rfl, rfl⟩⟩
  told unarmed := by cases unarmed

/-- Two persisted turns in a row. -/
theorem committed_truthful_plain :
    (serveAll ResidentRequest.serve
      ([ResidentRequest.chat (plainTurn false [1, 2] [3]),
        .chat (plainTurn false [1, 2, 3, 4] [5])].take 2) (boot (some "gemma4"))).CommittedTruthful := by
  apply committed_truthful
  exact ⟨fun _ => plainTurn_sound _ _ _, fun _ => plainTurn_sound _ _ _, trivial⟩

def wholeKvdiff (toks : List Int) : KvdiffRequest where
  toks := toks
  mode := .control
  sameShape := true
  enginePersist := true
  faults _ := .ok

/-- A `single_entry` turn, or a debug request, of the committed length: the next turn
would trust the list of the first conversation over the cache of another. -/
theorem committed_outlives_cache :
    (∃ res, res = serveAll ResidentRequest.serve
        [.chat (plainTurn false [1, 2] [3]), .chat (plainTurn true [4, 5] [6])]
        (boot (some "gemma4")) ∧
      res.entries = minted [4, 5, 6] ∧ res.committed = [1, 2, 3] ∧ res.tagOk = true ∧
      ¬ res.CommittedTruthful) ∧
    (∃ res, res = serveAll ResidentRequest.serve
        [.chat (plainTurn false [1, 2] [3]), .kvdiffBatch (wholeKvdiff [7, 8, 9])]
        (boot (some "gemma4")) ∧
      res.entries = minted [7, 8, 9] ∧ res.committed = [1, 2, 3] ∧ res.tagOk = true ∧
      ¬ res.CommittedTruthful) := by
  have lies : ∀ {res : Residency} (toks : List Int), res.entries = minted toks →
      res.committed = [1, 2, 3] → res.tagOk = true → toks.length = 3 → toks ≠ [1, 2, 3] →
      ¬ res.CommittedTruthful := by
    intro res toks entries committed trusted length other truthful
    have same := truthful trusted (by
      rw [Residency.position, entries, committed, List.length_map, length]
      rfl)
    rw [entries, committed] at same
    exact other (minted_injective same)
  refine ⟨⟨_, rfl, rfl, rfl, rfl, ?_⟩, ⟨_, rfl, rfl, rfl, rfl, ?_⟩⟩
  · exact lies [4, 5, 6] rfl rfl rfl rfl (by decide)
  · exact lies [7, 8, 9] rfl rfl rfl rfl (by decide)

end KairosEngine.Daemon
