import KairosEngine.Cuda.BatchedPrefill
import KairosEngine.Library.Marks

/-!
# What the recall peek leaves behind

`gemma4_kv_read_global_q` runs a whole step and puts two counters back.  The tokens of `dseq` are
part of a session here, and a forward pass computes the rows and the next token from what it
reads.  A run after the peek is compared with the run without it; the same calls on marks instead
of rows follow what the peek wrote through the later stores, saves and restores.
-/

namespace KairosEngine.Cuda

open KairosEngine.Library

universe u v

/-- What the forward passes compute from tokens, their position and the earlier rows in the
window of each layer: the rows, and the argmax of a step. -/
structure Forward (Row : Type u) (Token : Type v) where
  mint : Token → Nat → List (List Row) → Minted Row
  predict : Token → Nat → List (List Row) → Token
  /-- The rows of a batch, by place in it. -/
  mintBatch : List Token → Nat → List (List Row) → Nat → Minted Row
  /-- What a batch's buffers hold when they are allocated. -/
  scratch : Nat → Row

structure TokenSession (Row : Type u) (Token : Type v) where
  kv : KvSession Row
  dseq : Nat → Token

/-- What a step takes up: its token, and layer by layer the rows its attention reads. -/
structure Attention (Row : Type u) (Token : Type v) where
  token : Token
  reads : List (List Row)
  deriving DecidableEq

/-- A call after the peek; the chunk loop is a run of suffix batches. -/
inductive LaterCall (Row : Type u) (Token : Type v) where
  | prefill (tokens : List Token)
  | prefillBatchedFrom (env : BatchEnv) (tokens : List Token) (P : Nat)
  | decode (count : Nat)
  | decodeLogits (token : Token)
  | decodeBatch (tokens : List Token)
  | commit
  | rewind (delta : Int)
  | replay (rows : List (Minted Row))

/-- The session a call leaves, whether it succeeded, and its steps. -/
structure Outcome (Row : Type u) (Token : Type v) where
  session : TokenSession Row Token
  ok : Bool
  steps : List (Attention Row Token)

section Calls

variable {Row : Type u} {Token : Type v}
variable (geometry : Geometry) (widths : RowWidths) (forward : Forward Row Token)

def earlierRows (session : KvSession Row) : List (List Row) :=
  (List.range geometry.NL).map fun layer =>
    ((geometry.window layer session.dposHost).filter fun pos => pos < session.dposHost).map
      fun pos => (session.layers (geometry.source layer)).cache
        (geometry.slotOf (geometry.source layer) pos)

/-- One `g4KvStep` on the token at the live position, and the advance after it. -/
def tokenStep (head : Bool) (session : TokenSession Row Token) :
    Option (TokenSession Row Token × Attention Row Token) :=
  let pos := session.kv.dposHost
  let token := session.dseq pos
  let earlier := earlierRows geometry session.kv
  let minted := forward.mint token pos earlier
  (stepAndAdvance geometry minted session.kv).map fun kv =>
    ({ kv := kv
       dseq :=
        if head then Function.update session.dseq (pos + 1) (forward.predict token pos earlier)
        else session.dseq },
     { token := token
       reads := (List.range geometry.NL).map fun layer =>
        stepReads geometry layer minted session.kv })

/-- The steps of a call, each with the token the call sets for it and whether the head runs. -/
def tokenSteps : List (Option Token × Bool) → TokenSession Row Token → Outcome Row Token
  | [], session => ⟨session, true, []⟩
  | (given, head) :: rest, session =>
      let fed :=
        match given with
        | some token =>
            { session with dseq := Function.update session.dseq session.kv.dposHost token }
        | none => session
      match tokenStep geometry forward head fed with
      | none => ⟨fed, false, []⟩
      | some (next, step) =>
          let later := tokenSteps rest next
          ⟨later.session, later.ok, step :: later.steps⟩

/-- The prompt is copied into `dseq` at once; only its last step runs the head. -/
def promptFeeds (count : Nat) : List (Option Token × Bool) :=
  (List.range count).map fun i => (none, i + 1 == count)

def writePrompt (tokens : List Token) (session : TokenSession Row Token) :
    TokenSession Row Token :=
  { session with
    dseq := fun i =>
      if session.kv.dposHost ≤ i then
        match tokens[i - session.kv.dposHost]? with
        | some token => token
        | none => session.dseq i
      else session.dseq i }

def batchRows (tokens : List Token) (P : Nat) (session : KvSession Row) : List (Minted Row) :=
  (List.range tokens.length).map (forward.mintBatch tokens P (earlierRows geometry session))

/-- The batch, its queries taken as one step each. -/
def batchedStep (env : BatchEnv) (tokens : List Token) (P : Nat)
    (session : TokenSession Row Token) : Outcome Row Token :=
  let rows := batchRows geometry forward tokens P session.kv
  match gemma4KvPrefillBatchedFrom geometry env rows P session.kv with
  | none => ⟨session, false, []⟩
  | some kv =>
      ⟨{ writePrompt tokens session with kv := kv }, true,
        tokens.zipIdx.map fun entry =>
          { token := entry.1
            reads := (List.range geometry.NL).map fun layer =>
              (batchReads geometry widths forward.scratch rows P session.kv layer).getD entry.2
                [] }⟩

def LaterCall.serve (call : LaterCall Row Token) (session : TokenSession Row Token) :
    Outcome Row Token :=
  let refused : Outcome Row Token := ⟨session, false, []⟩
  match call with
  | .prefill tokens =>
      if tokens.length = 0 ∨ geometry.Pmax < session.kv.dposHost + tokens.length then refused
      else tokenSteps geometry forward (promptFeeds tokens.length) (writePrompt tokens session)
  | .prefillBatchedFrom env tokens P => batchedStep geometry widths forward env tokens P session
  | .decode count =>
      if geometry.Pmax ≤ session.kv.dposHost + count then refused
      else tokenSteps geometry forward (List.replicate count (none, true)) session
  | .decodeLogits token =>
      if geometry.Pmax ≤ session.kv.dposHost + 1 then refused
      else tokenSteps geometry forward [(some token, true)] session
  | .decodeBatch tokens =>
      if tokens.length = 0 ∨ geometry.Pmax ≤ session.kv.dposHost + tokens.length then refused
      else tokenSteps geometry forward (tokens.map fun token => (some token, true)) session
  | .commit => ⟨{ session with kv := gemma4KvCommit session.kv }, true, []⟩
  | .rewind delta =>
      match gemma4KvRewind geometry delta session.kv with
      | none => refused
      | some kv => ⟨{ session with kv := kv }, true, []⟩
  | .replay rows =>
      match gemma4KvReplay geometry widths rows session.kv with
      | none => refused
      | some kv => ⟨{ session with kv := kv }, true, []⟩

/-- The peek: the token is written, the step runs without the head, two counters go back. -/
def peekGlobalQ (token : Token) (session : TokenSession Row Token) :
    Option (TokenSession Row Token) :=
  let pos := session.kv.dposHost
  let minted := forward.mint token pos (earlierRows geometry session.kv)
  (gemma4KvReadGlobalQ geometry widths minted session.kv).map fun kv =>
    { kv := kv, dseq := Function.update session.dseq pos token }

/-- The status and the steps of each call of a run. -/
def observed : List (LaterCall Row Token) → TokenSession Row Token →
    List (Bool × List (Attention Row Token))
  | [], _ => []
  | call :: rest, session =>
      let outcome := call.serve geometry widths forward session
      (outcome.ok, outcome.steps) :: observed rest outcome.session

end Calls

/-! ## Marks -/

/-- What a step stores or predicts carries no mark. -/
def unmarkedForward : Forward Bool Bool where
  mint := fun _ _ _ _ => false
  predict := fun _ _ _ => false
  mintBatch := fun _ _ _ _ _ => false
  scratch := fun _ => false

/-- The call with every row and token it brings unmarked. -/
def LaterCall.unmarked {Row : Type u} {Token : Type v} :
    LaterCall Row Token → LaterCall Bool Bool
  | .prefill tokens => .prefill (tokens.map fun _ => false)
  | .prefillBatchedFrom env tokens P => .prefillBatchedFrom env (tokens.map fun _ => false) P
  | .decode count => .decode count
  | .decodeLogits _ => .decodeLogits false
  | .decodeBatch tokens => .decodeBatch (tokens.map fun _ => false)
  | .commit => .commit
  | .rewind delta => .rewind delta
  | .replay rows => .replay (rows.map fun _ _ => false)

section Marks

variable (geometry : Geometry) (widths : RowWidths)

/-- What a peek writes: in the layers the slot of the live position and one journal row, and the
token. -/
def peekMarks {Row : Type u} (session : KvSession Row) : TokenSession Bool Bool :=
  let pos := session.dposHost
  let j := pos - (slideJournal geometry session).commitPos
  let blank : Nat → Bool := fun _ => false
  { kv :=
      { dposHost := pos
        commitPos := session.commitPos
        jcur := 0
        ringWrapped := false
        oneShot := session.oneShot
        layers := fun layer =>
          { cache := Function.update blank (geometry.slotOf layer pos) true
            journal := Function.update blank j true } }
    dseq := Function.update blank pos true }

/-- The step's token and every row it reads are unmarked. -/
def Attention.Clean (step : Attention Bool Bool) : Prop :=
  step.token = false ∧ ∀ reads ∈ step.reads, ∀ mark ∈ reads, mark = false

instance (step : Attention Bool Bool) : Decidable step.Clean :=
  inferInstanceAs (Decidable (_ ∧ _))

/-- No step of the call takes up what the peek left. -/
def LaterCall.MeetsNoMark (call : LaterCall Bool Bool) (marks : TokenSession Bool Bool) : Prop :=
  ∀ step ∈ (call.serve geometry widths unmarkedForward marks).steps, step.Clean

instance (call : LaterCall Bool Bool) (marks : TokenSession Bool Bool) :
    Decidable (call.MeetsNoMark geometry widths marks) :=
  inferInstanceAs
    (Decidable (∀ step ∈ (call.serve geometry widths unmarkedForward marks).steps, step.Clean))

end Marks

/-! ## Two runs and their marks -/

/-- Two copies of a layer agree off the marked slots and journal rows. -/
structure LayerMarked {Row : Type u} (mark : LayerCache Bool) (one other : LayerCache Row) :
    Prop where
  cache : AgreeOff mark.cache one.cache other.cache
  journal : AgreeOff mark.journal one.journal other.journal

structure Marked {Row : Type u} (marks : KvSession Bool) (one other : KvSession Row) : Prop where
  dposHost_eq : other.dposHost = one.dposHost
  commitPos_eq : other.commitPos = one.commitPos
  oneShot_eq : other.oneShot = one.oneShot
  marksPos_eq : marks.dposHost = one.dposHost
  marksCommit_eq : marks.commitPos = one.commitPos
  marksOneShot_eq : marks.oneShot = one.oneShot
  layers : ∀ layer, LayerMarked (marks.layers layer) (one.layers layer) (other.layers layer)

structure TokenMarked {Row : Type u} {Token : Type v} (marks : TokenSession Bool Bool)
    (one other : TokenSession Row Token) : Prop where
  kv : Marked marks.kv one.kv other.kv
  dseq : AgreeOff marks.dseq one.dseq other.dseq

section Rows

variable {Row : Type u} {geometry : SharedGeometry}
variable {marks marks' : KvSession Bool} {one other one' other' : KvSession Row}

theorem slideJournal_commitPos {geometry : Geometry} {session : KvSession Row} :
    (slideJournal geometry session).commitPos =
      if 0 < geometry.ringW ∧ 0 < geometry.Jmax ∧
          geometry.Jmax ≤ session.dposHost - session.commitPos then
        session.dposHost - (geometry.Jmax - 1)
      else session.commitPos := by
  unfold slideJournal
  split <;> rfl

theorem step_oneShot {geometry : Geometry} {minted : Minted Row} {session next : KvSession Row}
    (stepped : stepAndAdvance geometry minted session = some next) :
    next.oneShot = session.oneShot := by
  obtain ⟨middle, stored, rfl⟩ := Option.map_eq_some_iff.mp stepped
  unfold g4KvStep at stored
  dsimp only at stored
  split at stored
  next => cases stored
  next =>
    cases stored
    simp only [advance, slideJournal]
    split <;> rfl

/-- One store: the slot becomes the same in both, the journal row inherits the slot's mark. -/
theorem LayerMarked.store {mark : LayerCache Bool} {left right : LayerCache Row}
    (marked : LayerMarked mark left right) (ringed : Bool) (slot j : Nat) (row : Row) :
    LayerMarked
      ⟨Function.update mark.cache slot false,
        if ringed then Function.update mark.journal j (mark.cache slot) else mark.journal⟩
      ⟨Function.update left.cache slot row,
        if ringed then Function.update left.journal j (left.cache slot) else left.journal⟩
      ⟨Function.update right.cache slot row,
        if ringed then Function.update right.journal j (right.cache slot) else right.journal⟩ where
  cache := marked.cache.update fun _ => rfl
  journal := by
    cases ringed with
    | false => exact marked.journal
    | true => exact marked.journal.update (marked.cache slot)

theorem Marked.step {minted : Minted Row} (marked : Marked marks one other)
    (marksStepped : stepAndAdvance geometry.toGeometry (fun _ => false) marks = some marks')
    (oneStepped : stepAndAdvance geometry.toGeometry minted one = some one')
    (otherStepped : stepAndAdvance geometry.toGeometry minted other = some other') :
    Marked marks' one' other' := by
  obtain ⟨marksPos, marksCommit⟩ := stepAndAdvance_some marksStepped
  obtain ⟨onePos, oneCommit⟩ := stepAndAdvance_some oneStepped
  obtain ⟨otherPos, otherCommit⟩ := stepAndAdvance_some otherStepped
  have slid : (slideJournal geometry.toGeometry other).commitPos =
      (slideJournal geometry.toGeometry one).commitPos := by
    rw [slideJournal_commitPos, slideJournal_commitPos, marked.dposHost_eq, marked.commitPos_eq]
  have marksSlid : (slideJournal geometry.toGeometry marks).commitPos =
      (slideJournal geometry.toGeometry one).commitPos := by
    rw [slideJournal_commitPos, slideJournal_commitPos, marked.marksPos_eq, marked.marksCommit_eq]
  refine ⟨?_, ?_, ?_, ?_, ?_, ?_, fun layer => ?_⟩
  · rw [otherPos, onePos, marked.dposHost_eq]
  · rw [otherCommit, oneCommit, slid]
  · rw [step_oneShot otherStepped, step_oneShot oneStepped, marked.oneShot_eq]
  · rw [marksPos, onePos, marked.marksPos_eq]
  · rw [marksCommit, oneCommit, marksSlid]
  · rw [step_oneShot marksStepped, step_oneShot oneStepped, marked.marksOneShot_eq]
  · rw [stepAndAdvance_layers layer marksStepped, stepAndAdvance_layers layer oneStepped,
      stepAndAdvance_layers layer otherStepped]
    by_cases owner : layer ∈ geometry.owners
    · simp only [if_pos owner, replayRow, slideJournal_dposHost, Nat.add_zero, slid, marksSlid,
        marked.dposHost_eq, marked.marksPos_eq]
      exact (marked.layers layer).store _ _ _ _
    · simp only [if_neg owner]
      exact marked.layers layer

theorem Marked.steps {rows : List (Minted Row)} (marked : Marked marks one other)
    (marksRun : runEach (stepAndAdvance geometry.toGeometry) (rows.map fun _ _ => false) marks =
      some marks')
    (oneRun : runEach (stepAndAdvance geometry.toGeometry) rows one = some one')
    (otherRun : runEach (stepAndAdvance geometry.toGeometry) rows other = some other') :
    Marked marks' one' other' := by
  induction rows generalizing marks one other with
  | nil =>
      cases marksRun
      cases oneRun
      cases otherRun
      exact marked
  | cons row rest inductionHypothesis =>
      obtain ⟨middleMarks, marksStepped, marksRest⟩ := Option.bind_eq_some_iff.mp marksRun
      obtain ⟨middleOne, oneStepped, oneRest⟩ := Option.bind_eq_some_iff.mp oneRun
      obtain ⟨middleOther, otherStepped, otherRest⟩ := Option.bind_eq_some_iff.mp otherRun
      exact inductionHypothesis (marked.step marksStepped oneStepped otherStepped) marksRest
        oneRest otherRest

theorem LayerMarked.restoreSlot {mark : LayerCache Bool} {left right : LayerCache Row}
    (marked : LayerMarked mark left right) (geometry : Geometry) (commitPos p layer : Nat) :
    LayerMarked (restoreSlot geometry commitPos p layer mark)
      (restoreSlot geometry commitPos p layer left)
      (restoreSlot geometry commitPos p layer right) := by
  unfold Cuda.restoreSlot
  split
  next => exact marked
  next => exact ⟨marked.cache.update (marked.journal _), marked.journal⟩

theorem Marked.restoreRows {geometry : Geometry} (marked : Marked marks one other) (delta : Nat)
    (layer : Nat) :
    LayerMarked (restoreRows geometry marks delta layer) (restoreRows geometry one delta layer)
      (restoreRows geometry other delta layer) := by
  induction delta with
  | zero => exact marked.layers layer
  | succ delta inductionHypothesis =>
      rw [restoreRows_succ, restoreRows_succ, restoreRows_succ, marked.dposHost_eq,
        marked.commitPos_eq, marked.marksPos_eq, marked.marksCommit_eq]
      split
      next => exact inductionHypothesis.restoreSlot geometry _ _ layer
      next => exact inductionHypothesis

theorem LayerMarked.storeBatch {geometry : Geometry} (marked : Marked marks one other)
    (rows : List (Minted Row)) (layer : Nat) :
    LayerMarked
      (storeBatch geometry marks (rows.map fun _ _ => false) layer (marks.layers layer))
      (storeBatch geometry one rows layer (one.layers layer))
      (storeBatch geometry other rows layer (other.layers layer)) := by
  have same := marked.layers layer
  unfold Cuda.storeBatch
  rw [marked.dposHost_eq, marked.marksPos_eq, List.length_map]
  split
  next => exact same
  next =>
    split
    next =>
      refine ⟨?_, same.journal⟩
      have stored := @AgreeOff.storeFrom _ _ _ _ geometry.ringW same.cache
        (one.dposHost + (rows.length - geometry.ringW))
        ((rows.drop (rows.length - geometry.ringW)).map fun minted => minted layer)
      simp only [List.map_map, ← List.map_drop] at stored ⊢
      exact stored
    next =>
      refine ⟨fun slot unmarked => ?_, same.journal⟩
      simp only [List.getElem?_map] at unmarked ⊢
      split at unmarked
      next above =>
        rw [if_pos above, if_pos above]
        cases present : rows[slot - one.dposHost]? with
        | some minted => rfl
        | none =>
            rw [present] at unmarked
            exact same.cache slot unmarked
      next below =>
        rw [if_neg below, if_neg below]
        exact same.cache slot unmarked

theorem rowAt_agrees {geometry : Geometry} (marked : Marked marks one other)
    {rows : List (Minted Row)} {layer pos : Nat}
    (unmarked : rowAt geometry marks (rows.map fun _ _ => false) layer pos = false) :
    rowAt geometry one rows layer pos = rowAt geometry other rows layer pos := by
  have cell := (marked.layers layer).cache (geometry.slotOf layer pos)
  unfold rowAt at unmarked ⊢
  rw [marked.marksPos_eq] at unmarked
  rw [marked.dposHost_eq]
  split
  next older =>
    rw [if_pos older] at unmarked
    exact cell unmarked
  next newer =>
    rw [if_neg newer, List.getElem?_map] at unmarked
    cases present : rows[pos - one.dposHost]? with
    | some minted => rfl
    | none =>
        rw [present] at unmarked
        exact cell unmarked

/-- The rows the earlier passes of the window left are the same in both. -/
theorem earlierRows_agree (marked : Marked marks one other)
    (unmarked : ∀ layer < geometry.NL, ∀ pos ∈ geometry.window layer one.dposHost,
      pos < one.dposHost → (marks.layers (geometry.source layer)).cache
        (geometry.slotOf (geometry.source layer) pos) = false) :
    earlierRows geometry.toGeometry one = earlierRows geometry.toGeometry other := by
  unfold earlierRows
  rw [marked.dposHost_eq]
  apply List.map_congr_left
  intro layer known
  apply List.map_congr_left
  intro pos read
  obtain ⟨inWindow, older⟩ := List.mem_filter.mp read
  exact (marked.layers _).cache _
    (unmarked layer (List.mem_range.mp known) pos inWindow (of_decide_eq_true older))

theorem stepReads_agree (marked : Marked marks one other) {layer : Nat}
    (known : layer < geometry.NL) (minted : Minted Row)
    (clean : ∀ mark ∈ stepReads geometry.toGeometry layer (fun _ => false) marks, mark = false) :
    stepReads geometry.toGeometry layer minted one =
      stepReads geometry.toGeometry layer minted other := by
  rw [stepReads_eq known] at clean ⊢
  rw [stepReads_eq known, marked.dposHost_eq]
  rw [marked.marksPos_eq] at clean
  apply List.map_congr_left
  intro pos read
  exact rowAt_agrees marked (clean _ (List.mem_map_of_mem read))

end Rows

section Tokens

variable {Row : Type u} {Token : Type v} {geometry : SharedGeometry} {widths : RowWidths}
variable {forward : Forward Row Token}
variable {marks marks' : TokenSession Bool Bool} {one other : TokenSession Row Token}

/-- A step that takes up no mark is the same in both runs, and its stores clear marks. -/
theorem tokenStep_agrees (marked : TokenMarked marks one other) (head : Bool)
    {step : Attention Bool Bool}
    (stepped : tokenStep geometry.toGeometry unmarkedForward head marks = some (marks', step))
    (clean : step.Clean) :
    ∃ one' other' taken,
      tokenStep geometry.toGeometry forward head one = some (one', taken) ∧
      tokenStep geometry.toGeometry forward head other = some (other', taken) ∧
      TokenMarked marks' one' other' := by
  obtain ⟨marksKv, marksStepped, pair⟩ := Option.map_eq_some_iff.mp stepped
  cases pair
  obtain ⟨token_clean, reads_clean⟩ := clean
  have token_eq : one.dseq one.kv.dposHost = other.dseq one.kv.dposHost := by
    apply marked.dseq
    rw [← marked.kv.marksPos_eq]
    exact token_clean
  have reads_of : ∀ layer < geometry.NL, ∀ mark ∈
      stepReads geometry.toGeometry layer (fun _ => false) marks.kv, mark = false := by
    intro layer known
    exact reads_clean _ (List.mem_map_of_mem (List.mem_range.mpr known))
  have earlier_eq : earlierRows geometry.toGeometry one.kv =
      earlierRows geometry.toGeometry other.kv := by
    apply earlierRows_agree marked.kv
    intro layer known pos read older
    have clean := reads_of layer known
    rw [stepReads_eq known, marked.kv.marksPos_eq] at clean
    have unmarked := clean _ (List.mem_map_of_mem read)
    rwa [rowAt_old (by rw [marked.kv.marksPos_eq]; exact older)] at unmarked
  unfold tokenStep
  simp only [marked.kv.dposHost_eq, ← token_eq, ← earlier_eq]
  generalize one.dseq one.kv.dposHost = token
  generalize earlierRows geometry.toGeometry one.kv = earlier
  generalize forward.mint token one.kv.dposHost earlier = minted
  obtain ⟨oneKv, oneStepped⟩ := @step_isSome _ geometry minted one.kv
  obtain ⟨otherKv, otherStepped⟩ := @step_isSome _ geometry minted other.kv
  have reads_eq : (List.range geometry.NL).map
        (fun layer => stepReads geometry.toGeometry layer minted other.kv) =
      (List.range geometry.NL).map
        (fun layer => stepReads geometry.toGeometry layer minted one.kv) := by
    apply List.map_congr_left
    intro layer member
    have known := List.mem_range.mp member
    exact (stepReads_agree marked.kv known minted (reads_of layer known)).symm
  rw [oneStepped, otherStepped, reads_eq]
  refine ⟨_, _, _, rfl, rfl, marked.kv.step marksStepped oneStepped otherStepped, ?_⟩
  cases head with
  | false => exact marked.dseq
  | true =>
      simp only [if_true, marked.kv.marksPos_eq]
      exact marked.dseq.update fun _ => rfl

/-- Both runs succeed alike and take the same steps, and still agree off the marks. -/
structure Outcome.Agrees (marks : Outcome Bool Bool) (one other : Outcome Row Token) : Prop where
  ok_eq : other.ok = one.ok
  steps_eq : other.steps = one.steps
  marked : TokenMarked marks.session one.session other.session

theorem tokenStep_isSome (head : Bool) (session : TokenSession Row Token) :
    ∃ result, tokenStep geometry.toGeometry forward head session = some result := by
  unfold tokenStep
  dsimp only
  obtain ⟨next, stepped⟩ := @step_isSome _ geometry
    (forward.mint (session.dseq session.kv.dposHost) session.kv.dposHost
      (earlierRows geometry.toGeometry session.kv)) session.kv
  rw [stepped]
  exact ⟨_, rfl⟩

theorem TokenMarked.feed (marked : TokenMarked marks one other) (token : Token) :
    TokenMarked
      { marks with dseq := Function.update marks.dseq marks.kv.dposHost false }
      { one with dseq := Function.update one.dseq one.kv.dposHost token }
      { other with dseq := Function.update other.dseq other.kv.dposHost token } where
  kv := marked.kv
  dseq := by
    rw [marked.kv.marksPos_eq, marked.kv.dposHost_eq]
    exact marked.dseq.update fun _ => rfl

theorem tokenSteps_agree (feeds : List (Option Token × Bool))
    (marked : TokenMarked marks one other)
    (clean : ∀ step ∈ (tokenSteps geometry.toGeometry unmarkedForward
      (feeds.map fun feed => (feed.1.map fun _ => false, feed.2)) marks).steps, step.Clean) :
    Outcome.Agrees
      (tokenSteps geometry.toGeometry unmarkedForward
        (feeds.map fun feed => (feed.1.map fun _ => false, feed.2)) marks)
      (tokenSteps geometry.toGeometry forward feeds one)
      (tokenSteps geometry.toGeometry forward feeds other) := by
  induction feeds generalizing marks one other with
  | nil => exact ⟨rfl, rfl, marked⟩
  | cons feed rest inductionHypothesis =>
      obtain ⟨given, head⟩ := feed
      -- from the sessions that hold the given token on, the three loops go alike
      have loop : ∀ {marks one other}, TokenMarked marks one other →
          (∀ step ∈ (tokenSteps geometry.toGeometry unmarkedForward ((none, head) ::
            rest.map fun feed => (feed.1.map fun _ => false, feed.2)) marks).steps, step.Clean) →
          Outcome.Agrees
            (tokenSteps geometry.toGeometry unmarkedForward ((none, head) ::
              rest.map fun feed => (feed.1.map fun _ => false, feed.2)) marks)
            (tokenSteps geometry.toGeometry forward ((none, head) :: rest) one)
            (tokenSteps geometry.toGeometry forward ((none, head) :: rest) other) := by
        intro marks one other marked clean
        obtain ⟨⟨marks', step⟩, stepped⟩ :=
          @tokenStep_isSome _ _ geometry unmarkedForward head marks
        simp only [tokenSteps, stepped, List.forall_mem_cons] at clean ⊢
        obtain ⟨one', other', taken, oneStepped, otherStepped, next⟩ :=
          @tokenStep_agrees _ _ _ forward _ _ _ _ marked head _ stepped clean.1
        simp only [oneStepped, otherStepped]
        obtain ⟨ok_eq, steps_eq, last⟩ := inductionHypothesis next clean.2
        exact ⟨ok_eq, by rw [steps_eq], last⟩
      cases given with
      | none => exact loop marked clean
      | some token => exact loop (marked.feed token) clean

theorem TokenMarked.writePrompt (marked : TokenMarked marks one other) (tokens : List Token) :
    TokenMarked (writePrompt (tokens.map fun _ => false) marks) (writePrompt tokens one)
      (writePrompt tokens other) where
  kv := marked.kv
  dseq := by
    intro i unmarked
    simp only [Cuda.writePrompt, marked.kv.marksPos_eq, List.getElem?_map] at unmarked
    simp only [Cuda.writePrompt, marked.kv.dposHost_eq]
    split at unmarked
    next above =>
      rw [if_pos above, if_pos above]
      cases present : tokens[i - one.kv.dposHost]? with
      | some token => rfl
      | none =>
          rw [present] at unmarked
          exact marked.dseq i unmarked
    next below =>
      rw [if_neg below, if_neg below]
      exact marked.dseq i unmarked

theorem promptFeeds_unmarked (count : Nat) :
    (promptFeeds count : List (Option Token × Bool)).map
        (fun feed => (feed.1.map fun _ => false, feed.2)) =
      (promptFeeds count : List (Option Bool × Bool)) := by
  rw [promptFeeds, promptFeeds, List.map_map]
  rfl

theorem batchedFrom_isSome_iff {geometry : Geometry} {env : BatchEnv} {rows : List (Minted Row)}
    {P : Nat} {session : KvSession Row} :
    (gemma4KvPrefillBatchedFrom geometry env rows P session).isSome = true ↔
      ¬ (rows.length = 0 ∨ session.dposHost ≠ P ∨ geometry.Pmax < P + rows.length ∨
        (P = 0 ∧ env.persist = true ∧ session.oneShot = false) ∨ 0 < geometry.cpuTail ∨
        env.fits = false) := by
  unfold gemma4KvPrefillBatchedFrom
  split
  next refused => simp only [Option.isSome_none, Bool.false_eq_true, false_iff, not_not, refused]
  next accepted => simp only [Option.isSome_some, accepted, not_false_eq_true]

theorem batchedFrom_oneShot {geometry : Geometry} {env : BatchEnv} {rows : List (Minted Row)}
    {P : Nat} {session next : KvSession Row}
    (batched : gemma4KvPrefillBatchedFrom geometry env rows P session = some next) :
    next.oneShot = session.oneShot := by
  unfold gemma4KvPrefillBatchedFrom at batched
  split at batched
  next => cases batched
  next =>
    cases batched
    rfl

/-- The same batch sunk in both copies clears the marks of what it stores. -/
theorem Marked.batchedFrom {marks marks' : KvSession Bool} {one other one' other' : KvSession Row}
    {geometry : Geometry} {env : BatchEnv} {rows : List (Minted Row)} {P : Nat}
    (marked : Marked marks one other)
    (marksBatched : gemma4KvPrefillBatchedFrom geometry env (rows.map fun _ _ => false) P marks =
      some marks')
    (oneBatched : gemma4KvPrefillBatchedFrom geometry env rows P one = some one')
    (otherBatched : gemma4KvPrefillBatchedFrom geometry env rows P other = some other') :
    Marked marks' one' other' := by
  obtain ⟨_, _, _, marksPos, marksCommit⟩ := batchedFrom_some marksBatched
  obtain ⟨_, _, _, onePos, oneCommit⟩ := batchedFrom_some oneBatched
  obtain ⟨_, _, _, otherPos, otherCommit⟩ := batchedFrom_some otherBatched
  rw [List.length_map] at marksPos
  refine ⟨otherPos.trans onePos.symm, ?_, ?_, marksPos.trans onePos.symm, ?_, ?_, fun layer => ?_⟩
  · rw [otherCommit, oneCommit, marked.commitPos_eq]
  · rw [batchedFrom_oneShot otherBatched, batchedFrom_oneShot oneBatched, marked.oneShot_eq]
  · rw [marksCommit, oneCommit, marked.marksCommit_eq]
  · rw [batchedFrom_oneShot marksBatched, batchedFrom_oneShot oneBatched, marked.marksOneShot_eq]
  · rw [batchedFrom_layers layer marksBatched, batchedFrom_layers layer oneBatched,
      batchedFrom_layers layer otherBatched]
    split
    next => exact LayerMarked.storeBatch marked rows layer
    next => exact marked.layers layer

theorem batchReads_agree {marks : KvSession Bool} {one other : KvSession Row}
    (marked : Marked marks one other) {layer : Nat} (known : layer < geometry.NL)
    {scratch : Nat → Row} {rows : List (Minted Row)} {P : Nat} (standing : one.dposHost = P)
    (clean : ∀ j < rows.length, ∀ pos ∈ geometry.window layer (P + j),
      rowAt geometry.toGeometry marks (rows.map fun _ _ => false) (geometry.source layer) pos =
        false) :
    batchReads geometry.toGeometry widths scratch rows P other layer =
      batchReads geometry.toGeometry widths scratch rows P one layer := by
  subst standing
  have otherReads := @batchReads_eq _ geometry widths _ known scratch rows other
  rw [marked.dposHost_eq] at otherReads
  rw [otherReads, batchReads_eq known]
  apply List.map_congr_left
  intro j bounded
  apply List.map_congr_left
  intro pos read
  exact (rowAt_agrees marked (clean j (List.mem_range.mp bounded) pos read)).symm

theorem length_batchRows {geometry : Geometry} (tokens : List Token) (P : Nat)
    (session : KvSession Row) :
    (batchRows geometry forward tokens P session).length = tokens.length := by
  rw [batchRows, List.length_map, List.length_range]

theorem batchRows_unmarked {geometry : Geometry} (tokens : List Token) (P : Nat)
    (marks : KvSession Bool) (session : KvSession Row) :
    batchRows geometry unmarkedForward (tokens.map fun _ => false) P marks =
      (batchRows geometry forward tokens P session).map fun _ _ => false := by
  rw [batchRows, batchRows, List.length_map, List.map_map]
  rfl

/-- Whether a batch is accepted depends on nothing that the peek changes. -/
theorem batchedFrom_alike {Other : Type*} {geometry : Geometry} {env : BatchEnv}
    {rows : List (Minted Row)} {others : List (Minted Other)} {P : Nat} {session : KvSession Row}
    {other : KvSession Other} (length_eq : others.length = rows.length)
    (dposHost_eq : other.dposHost = session.dposHost)
    (oneShot_eq : other.oneShot = session.oneShot) :
    (gemma4KvPrefillBatchedFrom geometry env others P other).isSome =
      (gemma4KvPrefillBatchedFrom geometry env rows P session).isSome := by
  rw [Bool.eq_iff_iff, batchedFrom_isSome_iff, batchedFrom_isSome_iff, length_eq, dposHost_eq,
    oneShot_eq]

theorem batchedStep_of_none {geometry : Geometry} {env : BatchEnv} {tokens : List Token} {P : Nat}
    {session : TokenSession Row Token}
    (refused : gemma4KvPrefillBatchedFrom geometry env
      (batchRows geometry forward tokens P session.kv) P session.kv = none) :
    batchedStep geometry widths forward env tokens P session = ⟨session, false, []⟩ := by
  unfold batchedStep
  dsimp only
  rw [refused]

theorem batchedStep_of_some {geometry : Geometry} {env : BatchEnv} {tokens : List Token} {P : Nat}
    {session : TokenSession Row Token} {kv : KvSession Row}
    (batched : gemma4KvPrefillBatchedFrom geometry env
      (batchRows geometry forward tokens P session.kv) P session.kv = some kv) :
    batchedStep geometry widths forward env tokens P session =
      ⟨{ writePrompt tokens session with kv := kv }, true,
        tokens.zipIdx.map fun entry =>
          { token := entry.1
            reads := (List.range geometry.NL).map fun layer =>
              (batchReads geometry widths forward.scratch
                (batchRows geometry forward tokens P session.kv) P session.kv layer).getD
                  entry.2 [] }⟩ := by
  unfold batchedStep
  dsimp only
  rw [batched]

/-- With every query of the batch clean, the marked run has read no mark in any window. -/
theorem batch_unmarked {marks : KvSession Bool} {rows : List (Minted Bool)}
    {blanks : List Bool} {P : Nat} {scratch : Nat → Bool} (sized : rows.length = blanks.length)
    (standing : marks.dposHost = P)
    (clean : ∀ step ∈ blanks.zipIdx.map (fun entry =>
      ({ token := entry.1
         reads := (List.range geometry.NL).map fun layer =>
          (batchReads geometry.toGeometry widths scratch rows P marks layer).getD entry.2 [] } :
        Attention Bool Bool)), step.Clean)
    {layer : Nat} (known : layer < geometry.NL) :
    ∀ j < rows.length, ∀ pos ∈ geometry.window layer (P + j),
      rowAt geometry.toGeometry marks rows (geometry.source layer) pos = false := by
  subst standing
  intro j few pos read
  have inside : j < blanks.length := sized ▸ few
  have member : (blanks[j], j) ∈ blanks.zipIdx := by
    rw [List.mk_mem_zipIdx_iff_getElem?, List.getElem?_eq_getElem inside]
  have reads := (clean _ (List.mem_map_of_mem member)).2 _
    (List.mem_map_of_mem (List.mem_range.mpr known))
  rw [batchReads_eq known] at reads
  apply reads
  rw [List.getD_eq_getElem?_getD, List.getElem?_map, List.getElem?_range few]
  exact List.mem_map_of_mem read

theorem batchedStep_agrees (env : BatchEnv) (tokens : List Token) (P : Nat)
    (marked : TokenMarked marks one other)
    (clean : ∀ step ∈ (batchedStep geometry.toGeometry widths unmarkedForward env
      (tokens.map fun _ => false) P marks).steps, step.Clean) :
    Outcome.Agrees
      (batchedStep geometry.toGeometry widths unmarkedForward env (tokens.map fun _ => false) P
        marks)
      (batchedStep geometry.toGeometry widths forward env tokens P one)
      (batchedStep geometry.toGeometry widths forward env tokens P other) := by
  have blank := @batchRows_unmarked Row Token forward geometry.toGeometry tokens P marks.kv one.kv
  have sized : ∀ session, (batchRows geometry.toGeometry forward tokens P session).length =
      tokens.length := length_batchRows tokens P
  have marksAlike := @batchedFrom_alike Row Bool geometry.toGeometry env
    (batchRows geometry.toGeometry forward tokens P one.kv)
    (batchRows geometry.toGeometry unmarkedForward (tokens.map fun _ => false) P marks.kv) P one.kv
    marks.kv (by rw [blank, List.length_map]) marked.kv.marksPos_eq marked.kv.marksOneShot_eq
  have otherAlike := @batchedFrom_alike Row Row geometry.toGeometry env
    (batchRows geometry.toGeometry forward tokens P one.kv)
    (batchRows geometry.toGeometry forward tokens P other.kv) P one.kv other.kv
    ((sized other.kv).trans (sized one.kv).symm) marked.kv.dposHost_eq marked.kv.oneShot_eq
  cases oneBatched : gemma4KvPrefillBatchedFrom geometry.toGeometry env
      (batchRows geometry.toGeometry forward tokens P one.kv) P one.kv with
  | none =>
      rw [oneBatched, Option.isSome_none, Option.isSome_eq_false_iff,
        Option.isNone_iff_eq_none] at marksAlike otherAlike
      rw [batchedStep_of_none oneBatched, batchedStep_of_none otherAlike,
        batchedStep_of_none marksAlike]
      exact ⟨rfl, rfl, marked⟩
  | some oneKv =>
      rw [oneBatched, Option.isSome_some] at marksAlike otherAlike
      obtain ⟨marksKv, marksBatched⟩ := Option.isSome_iff_exists.mp marksAlike
      obtain ⟨otherKv, otherBatched⟩ := Option.isSome_iff_exists.mp otherAlike
      obtain ⟨standing, _, some_rows, _⟩ := batchedFrom_some oneBatched
      rw [batchedStep_of_some marksBatched] at clean ⊢
      rw [batchedStep_of_some oneBatched, batchedStep_of_some otherBatched]
      have marksStanding : marks.kv.dposHost = P := marked.kv.marksPos_eq.trans standing
      have unmarked := fun layer (known : layer < geometry.NL) =>
        batch_unmarked (by rw [blank, List.length_map, List.length_map, sized]) marksStanding
          clean known
      rw [blank] at unmarked marksBatched
      have earlier_eq : earlierRows geometry.toGeometry one.kv =
          earlierRows geometry.toGeometry other.kv := by
        apply earlierRows_agree marked.kv
        intro layer known pos read older
        rw [standing] at read
        have first := unmarked layer known 0 (by rw [List.length_map]; omega) pos read
        rwa [rowAt_old (by rw [marked.kv.marksPos_eq]; exact older)] at first
      have rows_eq : batchRows geometry.toGeometry forward tokens P other.kv =
          batchRows geometry.toGeometry forward tokens P one.kv := by
        rw [batchRows, batchRows, earlier_eq]
      rw [rows_eq] at otherBatched
      have reads_eq : ∀ layer < geometry.NL,
          batchReads geometry.toGeometry widths forward.scratch
              (batchRows geometry.toGeometry forward tokens P one.kv) P other.kv layer =
            batchReads geometry.toGeometry widths forward.scratch
              (batchRows geometry.toGeometry forward tokens P one.kv) P one.kv layer := by
        intro layer known
        apply batchReads_agree marked.kv known standing
        intro j few
        exact unmarked layer known j (by rwa [List.length_map])
      rw [rows_eq]
      refine ⟨rfl, ?_, marked.kv.batchedFrom marksBatched oneBatched otherBatched,
        (marked.writePrompt tokens).dseq⟩
      apply List.map_congr_left
      intro entry _
      congr 1
      apply List.map_congr_left
      intro layer member
      rw [reads_eq layer (List.mem_range.mp member)]

/-- A rewind goes alike in all three, and restores marked journal rows as marked slots. -/
theorem Marked.rewind {marks : KvSession Bool} {one other : KvSession Row} {geometry : Geometry}
    (marked : Marked marks one other) (delta : Int) :
    (gemma4KvRewind geometry delta marks = none ∧ gemma4KvRewind geometry delta one = none ∧
      gemma4KvRewind geometry delta other = none) ∨
    ∃ marks' one' other', gemma4KvRewind geometry delta marks = some marks' ∧
      gemma4KvRewind geometry delta one = some one' ∧
      gemma4KvRewind geometry delta other = some other' ∧ Marked marks' one' other' := by
  unfold gemma4KvRewind
  rw [marked.dposHost_eq, marked.commitPos_eq, marked.marksPos_eq, marked.marksCommit_eq]
  split
  next => exact Or.inl ⟨rfl, rfl, rfl⟩
  next =>
    split
    next =>
      split
      next => exact Or.inl ⟨rfl, rfl, rfl⟩
      next =>
        exact Or.inr ⟨_, _, _, rfl, rfl, rfl, rfl, rfl, marked.oneShot_eq, rfl, rfl,
          marked.marksOneShot_eq, marked.restoreRows delta.toNat⟩
    next =>
      exact Or.inr ⟨_, _, _, rfl, rfl, rfl, rfl, rfl, marked.oneShot_eq, rfl, rfl,
        marked.marksOneShot_eq, marked.layers⟩

/-- Whether a replay is accepted depends on nothing that the peek changes. -/
theorem replay_alike {Other : Type*} {geometry : Geometry} {rows : List (Minted Row)}
    {others : List (Minted Other)} {session : KvSession Row} {other : KvSession Other}
    (length_eq : others.length = rows.length) (dposHost_eq : other.dposHost = session.dposHost)
    (commitPos_eq : other.commitPos = session.commitPos) :
    (gemma4KvReplay geometry widths others other).isSome =
      (gemma4KvReplay geometry widths rows session).isSome := by
  unfold gemma4KvReplay
  rw [length_eq, dposHost_eq, commitPos_eq]
  split
  next => rfl
  next => rfl

/-- A replay is as many steps on rows that come from outside. -/
theorem Marked.replay {marks : KvSession Bool} {one other : KvSession Row}
    (marked : Marked marks one other) (rows : List (Minted Row)) :
    (gemma4KvReplay geometry.toGeometry widths (rows.map fun _ _ => false) marks = none ∧
      gemma4KvReplay geometry.toGeometry widths rows one = none ∧
      gemma4KvReplay geometry.toGeometry widths rows other = none) ∨
    ∃ marks' one' other',
      gemma4KvReplay geometry.toGeometry widths (rows.map fun _ _ => false) marks = some marks' ∧
      gemma4KvReplay geometry.toGeometry widths rows one = some one' ∧
      gemma4KvReplay geometry.toGeometry widths rows other = some other' ∧
      Marked marks' one' other' := by
  have marksAlike := @replay_alike Row widths Bool geometry.toGeometry rows
    (rows.map fun _ _ => false) one marks (List.length_map _) marked.marksPos_eq
    marked.marksCommit_eq
  have otherAlike := @replay_alike Row widths Row geometry.toGeometry rows rows one other rfl
    marked.dposHost_eq marked.commitPos_eq
  cases oneReplayed : gemma4KvReplay geometry.toGeometry widths rows one with
  | none =>
      rw [oneReplayed, Option.isSome_none, Option.isSome_eq_false_iff,
        Option.isNone_iff_eq_none] at marksAlike otherAlike
      exact Or.inl ⟨marksAlike, rfl, otherAlike⟩
  | some one' =>
      rw [oneReplayed, Option.isSome_some] at marksAlike otherAlike
      obtain ⟨marks', marksReplayed⟩ := Option.isSome_iff_exists.mp marksAlike
      obtain ⟨other', otherReplayed⟩ := Option.isSome_iff_exists.mp otherAlike
      exact Or.inr ⟨marks', one', other', marksReplayed, rfl, otherReplayed,
        marked.steps (replay_steps marksReplayed) (replay_steps oneReplayed)
          (replay_steps otherReplayed)⟩

/-- A call that meets no mark does the same in both runs. -/
theorem serve_agrees (marked : TokenMarked marks one other) (call : LaterCall Row Token)
    (clean : call.unmarked.MeetsNoMark geometry.toGeometry widths marks) :
    Outcome.Agrees (call.unmarked.serve geometry.toGeometry widths unmarkedForward marks)
      (call.serve geometry.toGeometry widths forward one)
      (call.serve geometry.toGeometry widths forward other) := by
  cases call with
  | prefill tokens =>
      simp only [LaterCall.MeetsNoMark, LaterCall.unmarked, LaterCall.serve, List.length_map,
        marked.kv.marksPos_eq, marked.kv.dposHost_eq] at clean ⊢
      split
      next => exact ⟨rfl, rfl, marked⟩
      next accepted =>
        rw [if_neg accepted, ← promptFeeds_unmarked] at clean
        rw [← promptFeeds_unmarked]
        exact tokenSteps_agree _ (marked.writePrompt tokens) clean
  | prefillBatchedFrom env tokens P => exact batchedStep_agrees env tokens P marked clean
  | decode count =>
      simp only [LaterCall.MeetsNoMark, LaterCall.unmarked, LaterCall.serve,
        marked.kv.marksPos_eq, marked.kv.dposHost_eq] at clean ⊢
      have feeds : (List.replicate count ((none : Option Token), true)).map
            (fun feed => (feed.1.map fun _ => false, feed.2)) =
          List.replicate count ((none : Option Bool), true) := List.map_replicate
      split
      next => exact ⟨rfl, rfl, marked⟩
      next accepted =>
        rw [if_neg accepted, ← feeds] at clean
        rw [← feeds]
        exact tokenSteps_agree _ marked clean
  | decodeLogits token =>
      simp only [LaterCall.MeetsNoMark, LaterCall.unmarked, LaterCall.serve,
        marked.kv.marksPos_eq, marked.kv.dposHost_eq] at clean ⊢
      split
      next => exact ⟨rfl, rfl, marked⟩
      next accepted =>
        rw [if_neg accepted] at clean
        exact tokenSteps_agree [(some token, true)] marked clean
  | decodeBatch tokens =>
      simp only [LaterCall.MeetsNoMark, LaterCall.unmarked, LaterCall.serve, List.length_map,
        marked.kv.marksPos_eq, marked.kv.dposHost_eq, List.map_map] at clean ⊢
      have feeds : (tokens.map fun token => (some token, true)).map
            (fun feed => (feed.1.map fun _ => false, feed.2)) =
          tokens.map ((fun token => (some token, true)) ∘ fun _ => false) := List.map_map
      split
      next => exact ⟨rfl, rfl, marked⟩
      next accepted =>
        rw [if_neg accepted, ← feeds] at clean
        rw [← feeds]
        exact tokenSteps_agree _ marked clean
  | commit =>
      exact ⟨rfl, rfl, ⟨marked.kv.dposHost_eq, marked.kv.dposHost_eq, marked.kv.oneShot_eq,
        marked.kv.marksPos_eq, marked.kv.marksPos_eq, marked.kv.marksOneShot_eq,
        marked.kv.layers⟩, marked.dseq⟩
  | rewind delta =>
      simp only [LaterCall.unmarked, LaterCall.serve]
      rcases @Marked.rewind _ _ _ _ geometry.toGeometry marked.kv delta with
        ⟨marksNone, oneNone, otherNone⟩ |
        ⟨marksKv, oneKv, otherKv, marksSome, oneSome, otherSome, next⟩
      · rw [marksNone, oneNone, otherNone]
        exact ⟨rfl, rfl, marked⟩
      · rw [marksSome, oneSome, otherSome]
        exact ⟨rfl, rfl, next, marked.dseq⟩
  | replay rows =>
      simp only [LaterCall.unmarked, LaterCall.serve]
      rcases @Marked.replay _ geometry widths _ _ _ marked.kv rows with
        ⟨marksNone, oneNone, otherNone⟩ |
        ⟨marksKv, oneKv, otherKv, marksSome, oneSome, otherSome, next⟩
      · rw [marksNone, oneNone, otherNone]
        exact ⟨rfl, rfl, marked⟩
      · rw [marksSome, oneSome, otherSome]
        exact ⟨rfl, rfl, next, marked.dseq⟩

/-- A run whose calls meet no mark is observed alike in both sessions. -/
theorem observed_agree {calls : List (LaterCall Row Token)} (marked : TokenMarked marks one other)
    (clean : GuardedRun
      (fun call marks => (call.serve geometry.toGeometry widths unmarkedForward marks).session)
      (fun call marks => call.MeetsNoMark geometry.toGeometry widths marks)
      (calls.map LaterCall.unmarked) marks) :
    observed geometry.toGeometry widths forward calls other =
      observed geometry.toGeometry widths forward calls one := by
  induction calls generalizing marks one other with
  | nil => rfl
  | cons call rest inductionHypothesis =>
      obtain ⟨here, later⟩ := clean
      obtain ⟨ok_eq, steps_eq, next⟩ := @serve_agrees _ _ _ _ forward _ _ _ marked call here
      rw [observed, observed, ok_eq, steps_eq, inductionHypothesis next later]

/-! ## The peek -/

theorem readGlobalQ_oneShot {geometry : Geometry} {minted : Minted Row}
    {session next : KvSession Row}
    (read : gemma4KvReadGlobalQ geometry widths minted session = some next) :
    next.oneShot = session.oneShot := by
  unfold gemma4KvReadGlobalQ at read
  split at read
  next => cases read
  next =>
    obtain ⟨stepped, stored, rfl⟩ := Option.map_eq_some_iff.mp read
    have advanced : stepAndAdvance geometry minted session = some (advance geometry stepped) := by
      rw [stepAndAdvance, stored, Option.map_some]
    have kept := step_oneShot advanced
    exact kept

/-- The session after a peek is the old one but for the cells the peek wrote. -/
theorem peekGlobalQ_marks {geometry : Geometry} {token : Token}
    {session peeked : TokenSession Row Token}
    (peek : peekGlobalQ geometry widths forward token session = some peeked) :
    TokenMarked (peekMarks geometry session.kv) session peeked := by
  obtain ⟨kv, read, rfl⟩ := Option.map_eq_some_iff.mp peek
  obtain ⟨_, dposHost_eq, commitPos_eq⟩ := readGlobalQ_some read
  refine ⟨⟨dposHost_eq, commitPos_eq, readGlobalQ_oneShot read, rfl, rfl, rfl, fun layer => ?_⟩,
    AgreeOff.of_write _ token⟩
  rw [(readGlobalQ_layers layer read).2]
  split
  next =>
    refine ⟨?_, ?_⟩
    · simp only [replayRow, slideJournal_dposHost, Nat.add_zero]
      exact AgreeOff.of_write _ _
    · simp only [replayRow, slideJournal_dposHost, Nat.add_zero]
      split
      next => exact AgreeOff.of_write _ _
      next => exact AgreeOff.refl _ _
  next => exact ⟨AgreeOff.refl _ _, AgreeOff.refl _ _⟩

/-- The peek is invisible in every run no step of which takes up what it left. -/
theorem peekGlobalQ_invisible (geometry : SharedGeometry) (widths : RowWidths)
    (forward : Forward Row Token) (token : Token) (session peeked : TokenSession Row Token)
    (peek : peekGlobalQ geometry.toGeometry widths forward token session = some peeked)
    (calls : List (LaterCall Row Token))
    (clean : GuardedRun
      (fun call marks => (call.serve geometry.toGeometry widths unmarkedForward marks).session)
      (fun call marks => call.MeetsNoMark geometry.toGeometry widths marks)
      (calls.map LaterCall.unmarked) (peekMarks geometry.toGeometry session.kv)) :
    observed geometry.toGeometry widths forward calls peeked =
      observed geometry.toGeometry widths forward calls session :=
  observed_agree (peekGlobalQ_marks peek) clean

end Tokens

/-- One ring owner whose window fills the ring, and one global owner. -/
def tightRing : SharedGeometry where
  Pmax := 12
  NL := 2
  kvfs := 2
  period := 2
  SW := 2
  ringW := 2
  Jmax := 3
  cpuTail := 0
  pmax_pos := Nat.succ_pos 11
  ring_le := by decide
  journal_pos := by decide
  window_le := by decide
  source_matches := by
    intro layer shared known
    omega

/-- Rows that name their token, and a model that counts on. -/
def countingForward : Forward Nat Nat where
  mint := fun token _ _ _ => token
  predict := fun token _ _ => token + 1
  mintBatch := fun tokens _ _ place _ => tokens.getD place 0
  scratch := fun _ => 0

/-- Four tokens into a fresh session of `tightRing`. -/
def prefilledFour : TokenSession Nat Nat :=
  ((LaterCall.prefill [11, 12, 13, 14]).serve tightRing.toGeometry ⟨1, 1, 1, 1, false, false⟩
    countingForward
    ⟨KvSession.opened (fun _ => ⟨fun _ => 0, fun _ => 0⟩) false, fun _ => 0⟩).session

/-- One token forward, then back behind it: no later step reads the restored slot. -/
theorem peekGlobalQ_invisible_tightRing : ∃ peeked,
    peekGlobalQ tightRing.toGeometry ⟨1, 1, 1, 1, false, false⟩ countingForward 77 prefilledFour =
      some peeked ∧
    observed tightRing.toGeometry ⟨1, 1, 1, 1, false, false⟩ countingForward
        [.decodeLogits 15, .rewind 1, .decodeLogits 16, .decode 2, .commit] peeked =
      observed tightRing.toGeometry ⟨1, 1, 1, 1, false, false⟩ countingForward
        [.decodeLogits 15, .rewind 1, .decodeLogits 16, .decode 2, .commit] prefilledFour :=
  ⟨_, rfl, peekGlobalQ_invisible tightRing ⟨1, 1, 1, 1, false, false⟩ countingForward 77
    prefilledFour _ rfl _ (by decide)⟩

/-- Back one token after the peek, the step reads the peek's row for the position that left the
ring. -/
theorem peekGlobalQ_seen_after_rewind : ∃ peeked,
    peekGlobalQ tightRing.toGeometry ⟨1, 1, 1, 1, false, false⟩ countingForward 77 prefilledFour =
      some peeked ∧
    observed tightRing.toGeometry ⟨1, 1, 1, 1, false, false⟩ countingForward
        [.rewind 1, .decodeLogits 15] peeked ≠
      observed tightRing.toGeometry ⟨1, 1, 1, 1, false, false⟩ countingForward
        [.rewind 1, .decodeLogits 15] prefilledFour :=
  ⟨_, rfl, by decide⟩

end KairosEngine.Cuda
