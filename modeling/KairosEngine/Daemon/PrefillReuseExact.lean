import KairosEngine.Daemon.PrefillReuse

/-!
# Reusing the cache equals recomputing it

Every path through the two sections ends with the cache holding the prompt head,
except one: after a declined warm continuation whose insurance restore fails, the
last resort prefills the whole head on top of whatever that restore left behind.
-/

namespace KairosEngine.Daemon

open KairosEngine.Library
open Residency

/-- The cache holds exactly these tokens and the statics are in order. -/
structure Standing (toks : List Int) (res : Residency) : Prop where
  entries_eq : res.entries = minted toks
  calm : res.Calm

namespace Standing

variable {toks : List Int} {res : Residency}

theorem withEntries (calm : res.Calm) (toks : List Int) :
    Standing toks (res.withEntries (minted toks)) :=
  ⟨rfl, (calm_withEntries res _).mpr calm⟩

theorem reset (calm : res.Calm) : Standing [] res.reset :=
  ⟨rfl, (calm_reset res).mpr calm⟩

theorem position (standing : Standing toks res) : res.position = toks.length := by
  rw [Residency.position, standing.entries_eq, List.length_map]

end Standing

/-- Calm is kept by every verb that only moves entries. -/
theorem calm_of_left {res : Residency} (calm : res.Calm) {next : Residency}
    (moved : ∃ left, next = res.withEntries left) : next.Calm := by
  rcases moved with ⟨left, rfl⟩
  exact (calm_withEntries res left).mpr calm

namespace PrefillInput

variable (input : PrefillInput) {res : Residency}

/-! ## Building blocks -/

theorem asOneShot_ends {verb : Residency → Except Residency Residency} {entries : List Entry}
    (off : res.oneShot = false)
    (ends : Ends (verb (res.setOneshot true))
      (fun next => next = (res.setOneshot true).withEntries entries)
      (fun next => ∃ left, next = (res.setOneshot true).withEntries left)) :
    Ends (asOneShot verb res) (fun next => next = res.withEntries entries)
      (fun next => ∃ left, next = res.withEntries left) := by
  have cleared : ∀ left, ((res.setOneshot true).withEntries left).setOneshot false =
      res.withEntries left := by
    intro left
    simp only [setOneshot, Residency.withEntries, ← off]
  unfold asOneShot
  cases run : verb (res.setOneshot true) with
  | ok next =>
      rw [run] at ends
      simp only [ends_ok] at ends ⊢
      rw [ends, cleared]
  | error stopped =>
      rw [run] at ends
      rcases ends with ⟨left, rfl⟩
      exact ⟨left, cleared left⟩

/-- A round trip puts the cache back exactly, or leaves some entries. -/
theorem roundTrip_ends (bytes snapshot restore : Site) (P : Nat) :
    Ends (input.roundTrip bytes snapshot restore P res) (fun next => next = res)
      (fun next => ∃ left, next = res.withEntries left) := by
  have unchanged : ∀ next, next = res → ∃ left, next = res.withEntries left :=
    fun next same => ⟨res.entries, by rw [same, withEntries_self]⟩
  unfold roundTrip
  apply Ends.bind (prefixBytes_ends.mono (fun _ done => done) unchanged)
  intro _ _
  apply Ends.bind ((snapshotPrefix_ends P).mono (fun _ done => done) unchanged)
  rintro blob ⟨rfl, _⟩
  apply (restorePrefix_ends res.entries).mono
  · intro next restored
    rw [restored]
    rfl
  · rintro next ⟨left, rfl⟩
    exact ⟨left, rfl⟩

theorem oneShotBatch_ends (off : res.oneShot = false) (enginePersist : Bool)
    (verdict : Verdict) (toks : List Int) :
    Ends (asOneShot (prefillBatched enginePersist verdict toks) res)
      (fun next => next = res.withEntries (minted toks))
      (fun next => ∃ left, next = res.withEntries left) :=
  asOneShot_ends off (prefillBatched_ends enginePersist toks)

/-! ## Reuse -/

/-- The forwards of a capture end with the prefix batched in, or with a cold cache. -/
theorem captureForward_eq (off : res.oneShot = false) (shared : List Int) (want : Nat) :
    (input.captureForward shared want res.reset).2 =
      res.withEntries
        (bif (input.captureForward shared want res.reset).1 then minted shared else []) := by
  unfold captureForward
  split
  next =>
    have first := @prefillBatched_ends res.reset (input.faults .captureBatch)
      input.env.enginePersist shared
    cases run : res.reset.prefillBatched input.env.enginePersist
        (input.faults .captureBatch) shared with
    | ok built =>
        rw [run] at first
        exact first
    | error left =>
        rw [run] at first
        rcases first with ⟨entries, rfl⟩
        have second := @oneShotBatch_ends (res.reset.withEntries entries).reset off
          input.env.enginePersist (input.faults .captureBatchOneShot) shared
        simp only
        split
        next built retry =>
          rw [retry] at second
          exact second
        next left retry =>
          rw [retry] at second
          rcases second with ⟨entries, rfl⟩
          rfl
  next => rfl

theorem captureStanding_ends (batched : Bool) (blob : List Entry) :
    Ends (input.captureStanding batched blob (res.withEntries blob))
      (fun next => next = res.withEntries blob)
      (fun next => ∃ left, next = res.withEntries left) := by
  unfold captureStanding
  split
  next => exact @restorePrefix_ends (res.withEntries blob).reset (input.faults .captureRestore) blob
  next => exact rfl

/-- The capture leaves the shared prefix in the cache and in the blob. -/
theorem captureBase_ends (off : res.oneShot = false) (tokens : List Int) (want : Nat) :
    Ends (input.captureBase tokens want res)
      (fun built => built = (res.withEntries (minted (tokens.take want)),
        minted (tokens.take want)))
      (fun next => ∃ left, next = res.withEntries left) := by
  have forward := captureForward_eq input off (tokens.take want) want
  unfold captureBase
  simp only
  generalize input.captureForward (tokens.take want) want res.reset = attempt at *
  have filled : Ends
      (bif attempt.1 then Except.ok attempt.2
        else attempt.2.prefill (input.faults .capturePrefill) (tokens.take want))
      (fun next => next = res.withEntries (minted (tokens.take want)))
      (fun next => ∃ left, next = res.withEntries left) := by
    cases batched : attempt.1 with
    | true =>
        rw [batched] at forward
        exact forward
    | false =>
        rw [batched] at forward
        simp only [cond_false] at forward ⊢
        rw [forward]
        exact append_ends (tokens.take want)
  apply Ends.bind filled
  rintro next rfl
  apply Ends.bind (prefixBytes_ends.mono (fun _ done => done)
    (fun _ same => ⟨minted (tokens.take want), same⟩))
  intro _ _
  apply Ends.bind ((snapshotPrefix_ends want).mono (fun _ done => done)
    (fun _ same => ⟨minted (tokens.take want), same⟩))
  rintro blob ⟨rfl, _⟩
  apply Ends.bind (captureStanding_ends input attempt.1 (minted (tokens.take want)))
  rintro next rfl
  exact rfl

theorem usable_iff {tokens : List Int} {want : Nat} {modelTag : Option String}
    {snap : PrefixSnap} :
    usable tokens want modelTag snap = true ↔
      modelTag = some snap.tag ∧ snap.toks.length ≤ want ∧ snap.toks ≠ [] ∧
        tokens.take snap.toks.length = snap.toks := by
  simp [usable, and_assoc]

/-- A prompt, a reuse length and a residency that agree. -/
def ReuseAgrees (tokens : List Int) (outcome : Nat × Residency) : Prop :=
  outcome.1 ≤ tokens.length - 1 ∧ Standing (tokens.take outcome.1) outcome.2

theorem restoreHit_agrees (calm : res.Calm) {tokens : List Int} {want : Nat}
    {snap : PrefixSnap} {drop : Residency → Residency} (short : want ≤ tokens.length - 1)
    (serves : usable tokens want res.modelTag snap = true)
    (truthful : res.modelTag = some snap.tag → snap.blob = minted snap.toks)
    (dropped : ∀ left : Residency, left.Calm → left.entries = [] →
      (drop left).Calm ∧ (drop left).entries = []) :
    ReuseAgrees tokens (input.restoreHit snap drop res) := by
  obtain ⟨tagged, bounded, _, shared⟩ := usable_iff.mp serves
  have restored := @restorePrefix_ends res.reset (input.faults .hitRestore) snap.blob
  unfold restoreHit
  cases run : res.reset.restorePrefix (input.faults .hitRestore) snap.blob with
  | ok next =>
      rw [run] at restored
      simp only [ends_ok] at restored
      refine ⟨Nat.le_trans bounded short, ?_⟩
      rw [restored]
      refine ⟨?_, (calm_withEntries _ _).mpr ((calm_reset res).mpr calm)⟩
      rw [shared]
      exact truthful tagged
  | error left =>
      rw [run] at restored
      have clean := dropped left.reset
        ((calm_reset left).mpr (calm_of_left ((calm_reset res).mpr calm) restored)) rfl
      refine ⟨Nat.zero_le _, ?_⟩
      exact ⟨clean.2, clean.1⟩

theorem snapshotReuse_agrees (calm : res.Calm) (tokens : List Int) (lcp : Nat) :
    ReuseAgrees tokens (input.snapshotReuse tokens lcp res) := by
  have short : min lcp (tokens.length - 1) ≤ tokens.length - 1 := Nat.min_le_right _ _
  unfold snapshotReuse
  simp only
  split
  next snap found =>
    rw [Option.filter_eq_some_iff] at found
    refine restoreHit_agrees input calm short found.2 (calm.roll_truthful snap found.1) ?_
    intro left leftCalm empty
    exact ⟨⟨leftCalm.oneShot_off, leftCalm.base_truthful, fun _ absent => by cases absent⟩, empty⟩
  next =>
    have calm' : Calm { res with rollSnap := none } :=
      ⟨calm.oneShot_off, calm.base_truthful, fun _ absent => by cases absent⟩
    split
    next snap found =>
      rw [Option.filter_eq_some_iff] at found
      refine restoreHit_agrees input calm' short found.2 (calm.base_truthful snap found.1) ?_
      intro left leftCalm empty
      exact ⟨⟨leftCalm.oneShot_off, fun _ absent => (by cases absent), leftCalm.roll_truthful⟩,
        empty⟩
    next =>
      have captured := captureBase_ends input calm'.oneShot_off tokens
        (min lcp (tokens.length - 1))
      split
      next standing blob run =>
        rw [run] at captured
        cases captured
        have built := Standing.withEntries calm' (tokens.take (min lcp (tokens.length - 1)))
        split
        next tag live =>
          refine ⟨short, built.entries_eq, built.calm.oneShot_off, ?_, built.calm.roll_truthful⟩
          rintro snap kept _
          cases kept
          rfl
        next => exact ⟨short, built⟩
      next left run =>
        rw [run] at captured
        refine ⟨Nat.zero_le _, ?_⟩
        exact Standing.reset (calm_of_left calm' captured)

/-- What the prefill section is handed. -/
structure Reused.Agrees (reused : Reused) : Prop where
  nonempty : reused.tokens ≠ []
  bounded : reused.prefillFrom ≤ reused.tokens.length - 1
  standing : Standing (reused.tokens.take reused.prefillFrom) reused.res

/-- Trusting the committed sequence: the cache is a prefix of the prompt, or reuse gave
up and the reset that follows starts over. -/
theorem reuseCommitted_agrees (calm : res.Calm) {tokens : List Int} (nonempty : tokens ≠ [])
    (committed : res.committed ≠ []) (stands : res.entries = minted res.committed) :
    let reused := input.reuseCommitted tokens res
    reused.tokens ≠ [] ∧ reused.res.Calm ∧
      (reused.prefillFrom = 0 ∨ reused.Agrees) := by
  obtain ⟨short, dropEq, shared, kept⟩ :=
    matchCommitted_spec input.env.reseam input.decode res.committed tokens
  have promptLeft := kept nonempty committed
  unfold reuseCommitted
  simp only
  generalize matchCommitted input.env.reseam input.decode res.committed tokens = found at *
  have calm' : Calm { res with lastTailGap := found.tokens.length - found.lcp } :=
    ⟨calm.1, calm.2, calm.3⟩
  have matched : found.lcp < found.tokens.length →
      found.lcp ≤ found.tokens.length - 1 := Nat.le_sub_one_of_lt
  have rewound : Ends
      (if 1 ≤ found.lcp ∧ found.lcp < found.tokens.length ∧
          found.drop ≤ input.env.boundOfRewind then
        if 0 < found.drop then
          Residency.rewind (input.faults .rewind) found.drop
            { res with lastTailGap := found.tokens.length - found.lcp }
        else .ok { res with lastTailGap := found.tokens.length - found.lcp }
      else
        .error { res with lastTailGap := found.tokens.length - found.lcp })
      (fun next => found.lcp < found.tokens.length ∧
        Standing (found.tokens.take found.lcp) next)
      (fun next => next = { res with lastTailGap := found.tokens.length - found.lcp }) := by
    split
    next accepted =>
      split
      next dropping =>
        apply (rewind_ends found.drop).mono
        · rintro next rfl
          refine ⟨accepted.2.1, ?_, (calm_withEntries _ _).mpr calm'⟩
          simp only [withEntries_entries, Residency.position, stands, shared]
          rw [List.length_map, dropEq, Nat.sub_sub_self short]
          exact List.map_take.symm
        · exact fun _ same => same
      next whole =>
        have everything : found.lcp = res.committed.length := by omega
        refine ⟨accepted.2.1, ?_, calm'⟩
        rw [shared, everything, List.take_length]
        exact stands
    next => exact rfl
  split
  next next run =>
    rw [run] at rewound
    exact ⟨promptLeft, rewound.2.calm, Or.inr ⟨promptLeft, matched rewound.1, rewound.2⟩⟩
  next left run =>
    rw [run] at rewound
    simp only [ends_error] at rewound
    subst rewound
    split
    next =>
      have agrees := snapshotReuse_agrees input calm' found.tokens found.lcp
      exact ⟨promptLeft, agrees.2.calm, Or.inr ⟨promptLeft, agrees.1, agrees.2⟩⟩
    next => exact ⟨promptLeft, calm', Or.inl rfl⟩

theorem reuse_agrees (calm : res.Calm) (truthful : res.CommittedTruthful) {tokens : List Int}
    (nonempty : tokens ≠ []) : (input.reuse tokens res).Agrees := by
  have section_ : ∀ reused : Reused, reused.tokens ≠ [] → reused.res.Calm →
      (reused.prefillFrom = 0 ∨ reused.Agrees) → (res.position = 0 → reused.res = res) →
      Reused.Agrees (if reused.prefillFrom = 0 ∧ 0 < res.position then
        { reused with res := reused.res.reset } else reused) := by
    intro reused promptLeft reusedCalm agrees cold
    split
    next again =>
      refine ⟨promptLeft, by simp [again.1], ?_⟩
      simpa only [again.1, List.take_zero] using Standing.reset reusedCalm
    next kept =>
      rcases agrees with none | agrees
      · have empty : res.position = 0 := by omega
        refine ⟨promptLeft, by simp [none], ?_, reusedCalm⟩
        rw [none, List.take_zero, cold empty]
        exact List.length_eq_zero_iff.mp empty
      · exact agrees
  unfold reuse
  simp only
  split
  next trusted =>
    have stands := truthful trusted.2.1 trusted.2.2.2
    have committed : res.committed ≠ [] := List.ne_nil_of_length_pos trusted.2.2.1
    have agrees := reuseCommitted_agrees input calm nonempty committed stands
    refine section_ _ agrees.1 agrees.2.1 agrees.2.2 ?_
    intro empty
    have positive := trusted.2.2.1
    rw [← trusted.2.2.2, empty] at positive
    exact absurd positive (Nat.not_succ_le_zero 0)
  next => exact section_ _ nonempty calm (Or.inl rfl) (fun _ => rfl)

/-! ## Prefill -/

@[simp]
theorem rollCapture_entries (bytes snapshot : Site) (toks : List Int) :
    (input.rollCapture bytes snapshot toks res).entries = res.entries := by
  unfold rollCapture
  repeat' split
  all_goals rfl

/-- The kept copy is the state of the tokens it is filed under, since a snapshot is
only taken at its own position. -/
theorem rollCapture_standing {toks : List Int} (standing : Standing toks res)
    (bytes snapshot : Site) : Standing toks (input.rollCapture bytes snapshot toks res) := by
  refine ⟨by rw [rollCapture_entries, standing.entries_eq], ?_⟩
  have calm := standing.calm
  unfold rollCapture
  split
  next => exact calm
  next tag live =>
    split
    next => exact calm
    next =>
      split
      next => exact calm
      next =>
        have taken := @snapshotPrefix_ends res (input.faults snapshot) toks.length
        split
        next => exact calm
        next blob run =>
          rw [run] at taken
          refine ⟨calm.oneShot_off, calm.base_truthful, ?_⟩
          rintro snap kept _
          cases kept
          exact taken.1.trans standing.entries_eq

/-- The state and the statics that every failing arm leaves behind. -/
def LeavesCalm (attempt : Except Residency Residency) (toks : List Int) : Prop :=
  Ends attempt (Standing toks) Residency.Calm

theorem leavesCalm_of_ends (calm : res.Calm) {attempt : Except Residency Residency}
    {toks : List Int}
    (ends : Ends attempt (fun next => next = res.withEntries (minted toks))
      (fun next => ∃ left, next = res.withEntries left)) :
    LeavesCalm attempt toks :=
  ends.mono (fun _ same => same ▸ Standing.withEntries calm toks)
    (fun _ moved => calm_of_left calm moved)

theorem roundTrip_leavesCalm {toks : List Int} (standing : Standing toks res)
    (bytes snapshot restore : Site) (P : Nat) :
    LeavesCalm (input.roundTrip bytes snapshot restore P res) toks :=
  (roundTrip_ends input bytes snapshot restore P).mono (fun _ same => same ▸ standing)
    (fun _ moved => calm_of_left standing.calm moved)

theorem coldBatch_ends (calm : res.Calm) (head : List Int) :
    Ends (input.coldBatch head res) (Standing head) (Standing []) := by
  have first := @prefillBatched_ends res (input.faults .coldBatch) input.env.enginePersist head
  unfold coldBatch
  split
  next next_ run =>
    rw [run] at first
    simp only [ends_ok] at first ⊢
    rw [first]
    exact Standing.withEntries calm head
  next left run =>
    rw [run] at first
    have leftCalm := calm_of_left calm first
    have attempt : LeavesCalm (do
        let built ← asOneShot (prefillBatched input.env.enginePersist
          (input.faults .coldBatchOneShot) head) left
        input.roundTrip .coldBytes .coldSnapshot .coldRestore head.length built) head := by
      apply Ends.bind (leavesCalm_of_ends leftCalm
        (oneShotBatch_ends leftCalm.oneShot_off _ _ head))
      intro built standing
      exact roundTrip_leavesCalm input standing _ _ _ _
    simp only
    split
    next next_ run =>
      rw [run] at attempt
      exact attempt
    next left run =>
      rw [run] at attempt
      exact Standing.reset attempt

variable {fullHead : List Int} {prefillFrom : Nat}

/-- Appending a piece of the head that starts where the cache stands. -/
theorem standing_append {toks piece whole : List Int} (standing : Standing toks res)
    (joined : toks ++ piece = whole) :
    res.withEntries (res.entries ++ minted piece) = res.withEntries (minted whole) := by
  rw [standing.entries_eq, ← joined, minted, minted, minted, List.map_append]

theorem take_append_take_drop (split : Nat) :
    fullHead.take prefillFrom ++ (fullHead.drop prefillFrom).take split =
      fullHead.take (prefillFrom + split) :=
  List.take_add.symm

theorem take_append_drop_drop (split : Nat) :
    fullHead.take (prefillFrom + split) ++ (fullHead.drop prefillFrom).drop split =
      fullHead := by
  rw [List.drop_drop, List.take_append_drop]

theorem batchedFrom_leavesCalm {toks piece whole : List Int} (standing : Standing toks res)
    (joined : toks ++ piece = whole) (verdict : Verdict) (P : Nat) :
    LeavesCalm (res.prefillBatchedFrom input.env.enginePersist verdict piece P) whole := by
  apply leavesCalm_of_ends standing.calm
  rw [← standing_append standing joined]
  exact prefillBatchedFrom_ends input.env.enginePersist piece P

theorem suffixForward_leavesCalm (standing : Standing (fullHead.take prefillFrom) res)
    (split : Nat) :
    LeavesCalm (input.suffixForward fullHead prefillFrom split res) fullHead := by
  unfold suffixForward
  simp only
  split
  next =>
    apply Ends.bind (batchedFrom_leavesCalm input standing (take_append_take_drop split) _ _)
    intro first firstStanding
    exact batchedFrom_leavesCalm input (rollCapture_standing input firstStanding _ _)
      (take_append_drop_drop split) _ _
  next => exact batchedFrom_leavesCalm input standing (List.take_append_drop _ _) _ _

theorem suffixBatch_leavesCalm (standing : Standing (fullHead.take prefillFrom) res)
    (split : Nat) :
    LeavesCalm (input.suffixBatch fullHead prefillFrom split res) fullHead := by
  apply Ends.bind (suffixForward_leavesCalm input standing split)
  intro extended extendedStanding
  exact roundTrip_leavesCalm input extendedStanding _ _ _ _

theorem fullRebatch_leavesCalm (calm : res.Calm) (toks : List Int) :
    LeavesCalm (do
      let built ← asOneShot (fun res => res.reset.prefillBatched input.env.enginePersist
        (input.faults .fullRebatch) toks) res
      input.roundTrip .fullBytes .fullSnapshot .fullRestore toks.length built) toks := by
  have batch : LeavesCalm (asOneShot (fun res => res.reset.prefillBatched
      input.env.enginePersist (input.faults .fullRebatch) toks) res) toks := by
    apply leavesCalm_of_ends calm
    apply asOneShot_ends calm.oneShot_off
    exact @prefillBatched_ends (res.setOneshot true).reset (input.faults .fullRebatch)
      input.env.enginePersist toks
  apply Ends.bind batch
  intro built standing
  exact roundTrip_leavesCalm input standing _ _ _ _

theorem warmAttempt_leavesCalm (standing : Standing (fullHead.take prefillFrom) res)
    (split : Nat) :
    LeavesCalm (input.warmAttempt fullHead prefillFrom split res) fullHead := by
  have suffix : LeavesCalm
      (if input.env.batchSuffix = true then input.suffixBatch fullHead prefillFrom split res
        else .error res) fullHead := by
    split
    next => exact suffixBatch_leavesCalm input standing split
    next => exact standing.calm
  unfold warmAttempt
  simp only
  split
  next next_ run =>
    rw [run] at suffix
    exact suffix
  next left run =>
    rw [run] at suffix
    split
    next => exact fullRebatch_leavesCalm input suffix fullHead
    next => exact suffix

/-! ## The per-token floor -/

/-- Every site of the per-token floor goes well. -/
def PerTokenServed (suffixLen split : Nat) : Prop :=
  if input.env.singleEntry = true then
    input.faults .inject = .ok
  else if 0 < split ∧ split < suffixLen then
    input.faults .headFirst = .ok ∧ input.faults .headSecond = .ok
  else
    input.faults .head = .ok

theorem append_serves (verdict : Verdict) (toks : List Int) :
    Ends (res.append verdict toks)
      (fun next => verdict = .ok ∧ next = res.withEntries (res.entries ++ minted toks))
      (fun next => verdict ≠ .ok ∧ next = res.withEntries (verdict.remains res.entries)) := by
  cases verdict with
  | ok => exact ⟨rfl, rfl⟩
  | refuse => exact ⟨by simp, rfl⟩
  | spoil left => exact ⟨by simp, rfl⟩

/-- The floor appends the suffix to whatever the cache holds, or reports an error. -/
theorem perToken_appends (split : Nat) :
    Ends (input.perToken fullHead prefillFrom split res)
      (fun next => input.PerTokenServed (fullHead.drop prefillFrom).length split ∧
        next.entries = res.entries ++ minted (fullHead.drop prefillFrom))
      (fun _ => ¬ input.PerTokenServed (fullHead.drop prefillFrom).length split) := by
  unfold perToken PerTokenServed
  simp only
  split
  next =>
    apply (append_serves (input.faults .inject) (fullHead.drop prefillFrom)).mono
    · rintro next ⟨served, rfl⟩
      exact ⟨served, rfl⟩
    · exact fun _ failed => failed.1
  next =>
    split
    next =>
      apply Ends.bind ((append_serves (input.faults .headFirst)
        ((fullHead.drop prefillFrom).take split)).mono (fun _ done => done)
        (fun _ failed both => failed.1 both.1))
      rintro first ⟨served, rfl⟩
      apply (append_serves (input.faults .headSecond)
        ((fullHead.drop prefillFrom).drop split)).mono
      · rintro next ⟨servedAgain, rfl⟩
        refine ⟨⟨served, servedAgain⟩, ?_⟩
        rw [withEntries_entries, rollCapture_entries, withEntries_entries, List.append_assoc,
          minted, minted, ← List.map_append, List.take_append_drop]
      · exact fun _ failed both => failed.1 both.2
    next =>
      apply (append_serves (input.faults .head) (fullHead.drop prefillFrom)).mono
      · rintro next ⟨served, rfl⟩
        exact ⟨served, rfl⟩
      · exact fun _ failed => failed.1

theorem append_standing {toks piece whole : List Int} (standing : Standing toks res)
    (joined : toks ++ piece = whole) (verdict : Verdict) :
    Ends (res.append verdict piece) (Standing whole) Residency.Calm := by
  apply (append_ends piece).mono
  · intro next appended
    rw [appended, standing_append standing joined]
    exact Standing.withEntries standing.calm whole
  · exact fun _ moved => calm_of_left standing.calm moved

theorem perToken_standing (standing : Standing (fullHead.take prefillFrom) res)
    (split : Nat) :
    Ends (input.perToken fullHead prefillFrom split res) (Standing fullHead)
      Residency.Calm := by
  have joined : fullHead.take prefillFrom ++ fullHead.drop prefillFrom = fullHead :=
    List.take_append_drop _ _
  unfold perToken
  simp only
  split
  next => exact append_standing standing joined _
  next =>
    split
    next =>
      apply Ends.bind (append_standing standing (take_append_take_drop split) _)
      intro first firstStanding
      exact append_standing (rollCapture_standing input firstStanding _ _)
        (take_append_drop_drop split) _
    next => exact append_standing standing joined _

/-! ## The last resort of the warm continuation -/

/-- The warm continuation is declined and its insured prefix cannot be put back. -/
def InsuranceLost (fullHead : List Int) (prefillFrom split : Nat) (res : Residency) : Prop :=
  input.wantBatchCont prefillFrom (fullHead.length - prefillFrom) = true ∧
    input.faults .insuranceBytes = .ok ∧ input.faults .insuranceSnapshot = .ok ∧
    (input.warmAttempt fullHead prefillFrom split res).isOk = false ∧
    input.faults .insuranceRestore ≠ .ok

/-- Losing the insured prefix does no harm: the failed restore left an empty cache for
the recovery, or the failed recovery happens to leave the prefix the floor extends. -/
def RecoveryHarmless (fullHead : List Int) (prefillFrom split : Nat) (res : Residency) : Prop :=
  input.InsuranceLost fullHead prefillFrom split res →
    let left := (input.faults .insuranceRestore).remains []
    if input.faults .recoveryPrefill = .ok then
      left = []
    else
      input.PerTokenServed (fullHead.drop prefillFrom).length split →
        (input.faults .recoveryPrefill).remains left = minted (fullHead.take prefillFrom)

theorem warmRecover_restored (calm : res.Calm) (fullHead : List Int) (insured : List Entry)
    (restored : input.faults .insuranceRestore = .ok) :
    ∃ next : Residency, input.warmRecover fullHead insured res = .error next ∧
      next.entries = insured ∧ next.Calm := by
  refine ⟨(res.setOneshot false).reset.withEntries insured, ?_, rfl,
    rfl, calm.base_truthful, calm.roll_truthful⟩
  simp only [warmRecover, restored, restorePrefix]

theorem warmRecover_lost (calm : res.Calm) (fullHead : List Int) (insured : List Entry)
    (lost : input.faults .insuranceRestore ≠ .ok) :
    ∃ left : Residency, left.Calm ∧
      left.entries = (input.faults .insuranceRestore).remains [] ∧
      input.warmRecover fullHead insured res =
        left.append (input.faults .recoveryPrefill) fullHead := by
  have calm' : (res.setOneshot false).reset.Calm :=
    ⟨rfl, calm.base_truthful, calm.roll_truthful⟩
  unfold warmRecover
  cases restore : input.faults .insuranceRestore with
  | ok => exact absurd restore lost
  | refuse => exact ⟨(res.setOneshot false).reset, calm', rfl, rfl⟩
  | spoil left =>
      exact ⟨(res.setOneshot false).reset.withEntries left,
        (calm_withEntries _ _).mpr calm', rfl, rfl⟩

/-- While the insurance holds, a warm continuation ends with the head, or declines with
the prefix in place. -/
theorem warmBatch_insured (standing : Standing (fullHead.take prefillFrom) res) (split : Nat)
    (wanted : input.wantBatchCont prefillFrom (fullHead.length - prefillFrom) = true)
    (insured : ¬ input.InsuranceLost fullHead prefillFrom split res) :
    Ends (input.warmBatch fullHead prefillFrom split res) (Standing fullHead)
      (Standing (fullHead.take prefillFrom)) := by
  have attempt := warmAttempt_leavesCalm input standing split
  unfold warmBatch prefixBytes snapshotPrefix
  split
  next bytes =>
    split
    next snapshot =>
      cases run : input.warmAttempt fullHead prefillFrom split res with
      | ok next_ =>
          rw [run] at attempt
          exact attempt
      | error left =>
          rw [run] at attempt
          have restored : input.faults .insuranceRestore = .ok := by
            by_contra lost
            exact insured ⟨wanted, bytes, snapshot.1, by rw [run]; rfl, lost⟩
          obtain ⟨next_, recovered, entries, calm⟩ :=
            warmRecover_restored input attempt fullHead res.entries restored
          simp only [bind, Except.bind, recovered, ends_error]
          exact ⟨entries.trans standing.entries_eq, calm⟩
    next => exact standing
  next => exact standing

/-- Once the insurance is lost, the arm is one prefill of the whole head on top of what
the failed restore left. -/
theorem warmBatch_lost (standing : Standing (fullHead.take prefillFrom) res) {split : Nat}
    (bounded : prefillFrom ≤ fullHead.length)
    (lost : input.InsuranceLost fullHead prefillFrom split res) :
    ∃ left : Residency, left.Calm ∧
      left.entries = (input.faults .insuranceRestore).remains [] ∧
      input.warmBatch fullHead prefillFrom split res =
        left.append (input.faults .recoveryPrefill) fullHead := by
  obtain ⟨_, bytes, snapshot, declined, restore⟩ := lost
  have attempt := warmAttempt_leavesCalm input standing split
  have here : res.position = prefillFrom := by
    rw [standing.position, List.length_take, Nat.min_eq_left bounded]
  cases run : input.warmAttempt fullHead prefillFrom split res with
  | ok next_ =>
      rw [run] at declined
      simp [Except.isOk, Except.toBool] at declined
  | error stopped =>
      rw [run] at attempt
      obtain ⟨left, calm, entries, recovered⟩ :=
        warmRecover_lost input attempt fullHead res.entries restore
      refine ⟨left, calm, entries, ?_⟩
      simp only [warmBatch, prefixBytes, snapshotPrefix, bytes, snapshot, here, and_self, if_true,
        bind, Except.bind, run, recovered]

/-! ## Both sections -/

theorem drop_ne_nil_of_warm (wanted :
    input.wantBatchCont prefillFrom (fullHead.length - prefillFrom) = true) :
    fullHead.drop prefillFrom ≠ [] := by
  intro empty
  have none : fullHead.length - prefillFrom = 0 := by
    rw [← List.length_drop, empty, List.length_nil]
  rw [none] at wanted
  revert wanted
  unfold wantBatchCont wantBatchContGated suffixBatchWins fullRebatchWins
  repeat' split
  all_goals simp

theorem wantBatch_cold (wanted :
    input.wantBatch prefillFrom (fullHead.length - prefillFrom) = true) : prefillFrom = 0 := by
  simp only [wantBatch, Bool.and_eq_true, decide_eq_true_eq] at wanted
  exact wanted.1.1.2

/-- Outside the last resort every batched arm ends with the head in the cache, or hands
the floor the prefix it extends. -/
theorem batchArms_insured (standing : Standing (fullHead.take prefillFrom) res) (split : Nat)
    (insured : ¬ input.InsuranceLost fullHead prefillFrom split res) :
    Ends (input.batchArms fullHead prefillFrom split res) (Standing fullHead)
      (Standing (fullHead.take prefillFrom)) := by
  unfold batchArms
  simp only
  split
  next cold =>
    have start := wantBatch_cold input cold
    subst start
    simpa only [List.take_zero, List.drop_zero] using
      coldBatch_ends input standing.calm fullHead
  next =>
    split
    next wanted => exact warmBatch_insured input standing split wanted insured
    next => exact standing

theorem batchArms_lost {split : Nat}
    (lost : input.InsuranceLost fullHead prefillFrom split res) :
    input.batchArms fullHead prefillFrom split res =
      input.warmBatch fullHead prefillFrom split res := by
  have warm := (wantBatchContGated_warm lost.1).1
  have notCold : ¬ input.wantBatch prefillFrom (fullHead.length - prefillFrom) = true := by
    intro cold
    rw [wantBatch_cold input cold] at warm
    exact absurd warm (Nat.lt_irrefl 0)
  unfold batchArms
  simp only
  rw [if_neg notCold, if_pos lost.1]

/-- A cache that stands on other entries ends with the head only by accident: those
entries are the ones the head starts with. -/
theorem standing_after_append {entries : List Entry} {toks piece whole : List Int}
    (joined : toks ++ piece = whole) :
    entries ++ minted piece = minted whole ↔ entries = minted toks := by
  rw [← joined, minted, minted, minted, List.map_append]
  exact List.append_left_inj _

/-- Outside the last resort the head is in the cache, by a batched arm or by the floor. -/
theorem prefillHead_insured {split : Nat} (standing : Standing (fullHead.take prefillFrom) res)
    (splitEq : input.rollSplit (fullHead.length - prefillFrom) res.lastTailGap = split)
    (insured : ¬ input.InsuranceLost fullHead prefillFrom split res) :
    Ends (input.prefillHead fullHead prefillFrom res) (Standing fullHead) (fun _ => True) := by
  have whole : fullHead.take prefillFrom ++ fullHead.drop prefillFrom = fullHead :=
    List.take_append_drop _ _
  have arms := batchArms_insured input standing split insured
  unfold prefillHead
  split
  next covered =>
    refine ⟨?_, standing.calm⟩
    rw [standing.entries_eq, ← whole, covered, List.append_nil, List.take_take, Nat.min_self]
  next =>
    simp only [splitEq]
    split
    next next_ run =>
      rw [run] at arms
      exact arms
    next left run =>
      rw [run] at arms
      exact (perToken_standing input arms split).mono (fun _ stands => stands)
        (fun _ _ => trivial)

/-- In the last resort the outcome depends on what the two failed verbs left behind. -/
theorem prefillHead_lost_iff {split : Nat} (standing : Standing (fullHead.take prefillFrom) res)
    (bounded : prefillFrom ≤ fullHead.length)
    (splitEq : input.rollSplit (fullHead.length - prefillFrom) res.lastTailGap = split)
    (lost : input.InsuranceLost fullHead prefillFrom split res) :
    Ends (input.prefillHead fullHead prefillFrom res) (Standing fullHead) (fun _ => True) ↔
      input.RecoveryHarmless fullHead prefillFrom split res := by
  have whole : fullHead.take prefillFrom ++ fullHead.drop prefillFrom = fullHead :=
    List.take_append_drop _ _
  obtain ⟨left, calm, entries, arm⟩ := warmBatch_lost input standing bounded lost
  have served := @append_serves left (input.faults .recoveryPrefill) fullHead
  have appended := @append_ends left (input.faults .recoveryPrefill) fullHead
  rw [← arm, ← batchArms_lost input lost] at served appended
  unfold prefillHead RecoveryHarmless
  rw [if_neg (drop_ne_nil_of_warm input lost.1)]
  simp only [splitEq, lost, true_imp_iff]
  cases run : input.batchArms fullHead prefillFrom split res with
  | ok next_ =>
      rw [run] at served appended
      rcases served with ⟨recovered, rfl⟩
      simp only [recovered, if_true, ends_ok]
      rw [← entries]
      constructor
      · intro stands
        have exact_ := stands.entries_eq
        rw [withEntries_entries] at exact_
        exact (standing_after_append (List.nil_append fullHead)).mp exact_
      · intro empty
        refine ⟨?_, (calm_withEntries _ _).mpr calm⟩
        rw [withEntries_entries, empty, List.nil_append]
  | error stopped =>
      rw [run] at served appended
      rcases served with ⟨failed, rfl⟩
      have stoppedCalm := calm_of_left calm appended
      have floor := @perToken_appends input
        (left.withEntries ((input.faults .recoveryPrefill).remains left.entries))
        fullHead prefillFrom split
      rw [if_neg failed, ← entries]
      constructor
      · intro stands servedFloor
        cases floorRun : input.perToken fullHead prefillFrom split
            (left.withEntries ((input.faults .recoveryPrefill).remains left.entries)) with
        | ok final =>
            rw [floorRun] at floor
            simp only [floorRun] at stands
            have exact_ := floor.2.symm.trans stands.entries_eq
            exact (standing_after_append whole).mp exact_
        | error reported =>
            rw [floorRun] at floor
            exact absurd servedFloor floor
      · intro harmless
        by_cases servedFloor : input.PerTokenServed (fullHead.drop prefillFrom).length split
        · exact (perToken_standing input ⟨harmless servedFloor, stoppedCalm⟩ split).mono
            (fun _ stands => stands) (fun _ _ => trivial)
        · apply floor.mono
          · exact fun _ ended => absurd ended.1 servedFloor
          · exact fun _ _ => trivial

theorem prefillHead_exact_iff (standing : Standing (fullHead.take prefillFrom) res)
    (bounded : prefillFrom ≤ fullHead.length) :
    Ends (input.prefillHead fullHead prefillFrom res) (Standing fullHead) (fun _ => True) ↔
      input.RecoveryHarmless fullHead prefillFrom
        (input.rollSplit (fullHead.length - prefillFrom) res.lastTailGap) res := by
  by_cases lost : input.InsuranceLost fullHead prefillFrom
      (input.rollSplit (fullHead.length - prefillFrom) res.lastTailGap) res
  · exact prefillHead_lost_iff input standing bounded rfl lost
  · exact iff_of_true (prefillHead_insured input standing rfl lost) fun held => absurd held lost

/-- The sections finish without sending an error only with the cache at the first n-1
tokens of the final prompt, one-shot off and both slots truthful. -/
def PromptPrefilled (outcome : Except Residency (List Int × Residency)) : Prop :=
  Ends outcome (fun final => Standing final.1.dropLast final.2) (fun _ => True)

/-- The last resort does no harm in this turn. -/
def TurnHarmless (tokens : List Int) (res : Residency) : Prop :=
  let reused := input.reuse tokens res
  let fullHead := reused.tokens.dropLast
  let prefillFrom := min reused.prefillFrom fullHead.length
  input.RecoveryHarmless fullHead prefillFrom
    (input.rollSplit (fullHead.length - prefillFrom) reused.res.lastTailGap) reused.res

theorem prefillPrompt_exact_iff (input : PrefillInput) (tokens : List Int) (res : Residency)
    (nonempty : tokens ≠ []) (calm : res.Calm) (truthful : res.CommittedTruthful) :
    PromptPrefilled (input.prefillPrompt tokens res) ↔ input.TurnHarmless tokens res := by
  have agrees := reuse_agrees input calm truthful nonempty
  unfold TurnHarmless prefillPrompt
  simp only
  generalize input.reuse tokens res = reused at agrees ⊢
  have bounded : reused.prefillFrom ≤ reused.tokens.dropLast.length := by
    rw [List.length_dropLast]
    exact agrees.bounded
  have standing : Standing (reused.tokens.dropLast.take reused.prefillFrom) reused.res := by
    rw [List.dropLast_eq_take, List.take_take, Nat.min_eq_left agrees.bounded]
    exact agrees.standing
  rw [Nat.min_eq_left bounded, ← prefillHead_exact_iff input standing bounded]
  unfold PromptPrefilled
  cases input.prefillHead reused.tokens.dropLast reused.prefillFrom reused.res with
  | ok final => rfl
  | error left => rfl

/-- A warm continuation whose suffix batch and full re-batch are both declined. -/
def declinedWarm (insuranceRestore : Verdict) : PrefillInput where
  env :=
    { persistArmed := true, singleEntry := false, enginePersist := true, reseam := false
      prefixSnapshot := false, rollSnapshot := false, prefillBatch := false
      batchCont := true, batchSuffix := true
      jmax := none, rewindBound := none, rollMin := none, rollMargin := none }
  decode := fun _ => []
  faults
    | .suffixBatch | .fullRebatch => .refuse
    | .insuranceRestore => insuranceRestore
    | _ => .ok

/-- A residency that committed the one token 1. -/
def oneCommitted : Residency where
  entries := [.token 1]
  oneShot := false
  committed := [1]
  committedTag := "gemma4"
  prefixSnap := none
  rollSnap := none
  lastTailGap := 0
  modelTag := some "gemma4"

def longPrompt : List Int := 1 :: List.replicate 66 7

theorem oneCommitted_calm : oneCommitted.Calm :=
  ⟨rfl, fun _ absent => (by cases absent), fun _ absent => (by cases absent)⟩

theorem oneCommitted_truthful : oneCommitted.CommittedTruthful := fun _ _ => rfl

/-- With the insurance restored, the declined arms cost nothing but time. -/
theorem prefillPrompt_exact_iff_declined :
    PromptPrefilled ((declinedWarm .ok).prefillPrompt longPrompt oneCommitted) :=
  (prefillPrompt_exact_iff (declinedWarm .ok) longPrompt oneCommitted
    (by simp [longPrompt]) oneCommitted_calm oneCommitted_truthful).mpr
    (fun lost => absurd rfl lost.2.2.2.2)

/-- A restore that fails after the position was set leaves the token in the cache, and
the recovery appends the whole head to it without an error. -/
theorem prefillPrompt_doubles_prefix :
    oneCommitted.Calm ∧ oneCommitted.CommittedTruthful ∧
      (declinedWarm (.spoil [.token 1])).prefillPrompt longPrompt oneCommitted =
        .ok (longPrompt, { oneCommitted with
          entries := minted (1 :: longPrompt.dropLast), lastTailGap := 66 }) ∧
      ¬ PromptPrefilled
        ((declinedWarm (.spoil [.token 1])).prefillPrompt longPrompt oneCommitted) := by
  refine ⟨oneCommitted_calm, oneCommitted_truthful, rfl, ?_⟩
  intro prefilled
  have doubled : minted (1 :: longPrompt.dropLast) = minted longPrompt.dropLast :=
    prefilled.entries_eq
  have lengths := congrArg List.length doubled
  simp only [List.length_map, List.length_cons] at lengths
  omega

end PrefillInput

end KairosEngine.Daemon
