import KairosEngine.Daemon.PromptMatch
import KairosEngine.Daemon.RegistryFile
import KairosEngine.Tokenizer.ChatTemplate

/-!
# The heartbeat on a shared contract prefix

`run_li_heartbeat` prefills what its first two frames have in common once, and then only the rest of
every frame; `run_li_oracle` and `run_li_capture` prefill every frame on a reset cache.  The cache is
the list of the tokens it holds.
-/

namespace KairosEngine.Daemon

open KairosEngine.Tokenizer (SptbTokenizer Message)

/-! ## Tapes and frames -/

/-- `LI_ACTIONS`. -/
def liActions : List Text :=
  ["NO_OP".toList, "KEEP".toList, "FORGET".toList, "E2B_TOOL".toList, "ACTION".toList]

def eqIgnoreAsciiCase (left right : Text) : Bool :=
  decide (left.map Char.toLower = right.map Char.toLower)

section Tape

variable (tables : Unicode)

/-- `label_id`; `li_action_id` is the case of `LI_ACTIONS`. -/
def labelId (labels : List Text) (s : Text) : Option Nat :=
  labels.findIdx? fun label => eqIgnoreAsciiCase label (tables.trim s)

/-- The loop over the characters of a line, with the field it is in. -/
def tapeFields (quoted : Bool) (cur : Text) : Text → List Text
  | [] => if cur = [] then [] else [cur]
  | c :: rest =>
      if c = '"' then tapeFields (!quoted) cur rest
      else if tables.isWhitespace c && !quoted then
        if cur = [] then tapeFields quoted [] rest else cur :: tapeFields quoted [] rest
      else tapeFields quoted (cur ++ [c]) rest

/-- The event of a line, if it has one: its body and the id of its label. -/
def tapeEvent (labels : List Text) (line : Text) : Option (Text × Nat) :=
  let l := tables.trim line
  if l = [] ∨ l.head? = some '#' then none
  else
    match tapeFields tables false [] l with
    | [_, kind, payload, salience, expect] =>
        (labelId tables labels expect).map fun aid =>
          let payload :=
            if payload = ['-'] then [] else " payload=\"".toList ++ payload ++ ['"']
          ("EVENT kind=".toList ++ kind ++ " salience=".toList ++ salience ++ payload, aid)
    | _ => none

/-- The events of a tape under a label set. -/
def tapeEvents (labels : List Text) (text : Text) : List (Text × Nat) :=
  (textLines text).filterMap (tapeEvent tables labels)

def parseKairosTape (text : Text) : List (Text × Nat) := tapeEvents tables liActions text

end Tape

/-- `LI_CONTRACT`. -/
def liContract : Text :=
  "You are a background kernel daemon. ".toList ++ "Each tick you receive ".toList ++
    "one environment event. ".toList ++ "Decide exactly one action and ".toList ++
    "respond with exactly one of: ".toList ++ "NO_OP (idle, do nothing), ".toList ++
    "KEEP (remember this fact), ".toList ++ "FORGET (evict stale state), ".toList ++
    "E2B_TOOL (run a tool/compute), ".toList ++ "or ACTION (intervene). ".toList ++
    "Most events are NO_OP.".toList

def liFrameText (body : Text) : Text :=
  liContract ++ "\n\nCURRENT EVENT: ".toList ++ body

/-- `apply_template_ids` of one user message. -/
def frameOf (tok : SptbTokenizer) (body : Text) : Option (List Int) :=
  (tok.applyTemplateIds [⟨"user".toList, liFrameText body⟩]).toOption.map fun ids =>
    ids.map Int.ofNat

/-! ## The passes over a tape -/

/-- Which calls on the cache succeed, by the position of the tick they belong to. -/
structure KvAnswers where
  contract : Bool
  prefill : Nat → Bool
  decode : Nat → Bool

/-- The calls that bring the frame of a tick into the cache all succeed. -/
def KvAnswers.Succeed (answers : KvAnswers) (tick : Nat) : Prop :=
  answers.contract = true ∧ answers.prefill tick = true ∧ answers.decode tick = true

instance (answers : KvAnswers) (tick : Nat) : Decidable (answers.Succeed tick) :=
  inferInstanceAs (Decidable (_ ∧ _))

/-- A probe of a tick, with what the cache holds then. -/
structure Probe where
  tick : Nat
  cache : List Int
  deriving DecidableEq

structure Heartbeat where
  cache : List Int
  probes : List Probe

/-- `lcp`: the first position below both lengths where the frames differ, or the lesser length. -/
def sharedLength (first second : List Int) : Nat :=
  let lcp := min first.length second.length
  ((List.range lcp).find? fun k => decide (first[k]? ≠ second[k]?)).getD lcp

/-- One tick of `run_li_heartbeat`. -/
def heartbeatTick (lcp : Nat) (answers : KvAnswers) (state : Heartbeat)
    (frame : List Int × Nat) : Heartbeat :=
  let (ids, i) := frame
  let np := ids.length
  if np ≤ lcp then state
  else if answers.prefill i = false then state
  else
    let delta := state.cache ++ (ids.take (np - 1)).drop lcp
    -- both early exits leave the cache as it is
    if answers.decode i = false then { state with cache := delta }
    else
      let full := delta ++ ids.drop (np - 1)
      { cache := full.take (full.length - (np - lcp)), probes := state.probes ++ [⟨i, full⟩] }

inductive HeartbeatEnd where
  | refused (message : String)
  -- `framed[0]` or `framed[1]` is out of bounds
  | panicked
  | done (probes : List Probe)

def HeartbeatEnd.probes : HeartbeatEnd → List Probe
  | done probes => probes
  | _ => []

/-- `run_li_heartbeat` from the prefix on. -/
def heartbeatOver (answers : KvAnswers) (framed : List (List Int)) : HeartbeatEnd :=
  match framed[0]?, framed[1]? with
  | some first, some second =>
      let lcp := sharedLength first second
      if answers.contract = false then .refused "li_heartbeat: contract prefill"
      else .done (framed.zipIdx.foldl (heartbeatTick lcp answers) ⟨first.take lcp, []⟩).probes
  | _, _ => .panicked

/-- One tick of `run_li_oracle` or `run_li_capture`, which begins with a reset; `kept` is whether
what follows the decode keeps the probe, and `woken` is what it decodes after it. -/
def cleanTick (answers : KvAnswers) (kept : Nat → Bool) (woken : Nat → List Int)
    (state : Heartbeat) (event : Option (List Int) × Nat) : Heartbeat :=
  let (frame, i) := event
  match frame with
  | none => state
  | some ids =>
      let np := ids.length
      if np < 2 ∨ 512 ≤ np then state
      else if answers.prefill i = false then { state with cache := [] }
      else if answers.decode i = false then { state with cache := ids.take (np - 1) }
      else
        let full := ids.take (np - 1) ++ ids.drop (np - 1)
        { cache := full ++ woken i
          probes := if kept i then state.probes ++ [⟨i, full⟩] else state.probes }

section Runs

variable (tables : Unicode) (tok : SptbTokenizer) (answers : KvAnswers) (tape : Text)

/-- The frames of the events that have one. -/
def framed : List (List Int) :=
  (parseKairosTape tables tape).filterMap fun event => frameOf tok event.1

def runLiHeartbeat : HeartbeatEnd :=
  if (parseKairosTape tables tape).length < 2 then .refused "li_heartbeat: need >=2 events"
  else heartbeatOver answers (framed tables tok tape)

/-- The probes of `run_li_oracle`, given what the model decodes when it is woken. -/
def runLiOracle (woken : Nat → List Int) : List Probe :=
  let frames := (parseKairosTape tables tape).map fun event => frameOf tok event.1
  (frames.zipIdx.foldl (cleanTick answers (fun _ => true) woken) ⟨[], []⟩).probes

/-- The samples of `run_li_capture`, given its labels and which of them the draft body keeps. -/
def runLiCapture (labels : List Text) (kept : Nat → Bool) : List Probe :=
  let frames := (tapeEvents tables labels tape).map fun event => frameOf tok event.1
  (frames.zipIdx.foldl (cleanTick answers kept fun _ => []) ⟨[], []⟩).probes

/-! ## Which frames are judged in their own context -/

/-- Every probe sees the tokens of its own frame and no others. -/
def OwnFrames (frame : Nat → Option (List Int)) (probes : List Probe) : Prop :=
  ∀ probe ∈ probes, frame probe.tick = some probe.cache

/-- Every frame is judged in its own context, if it has two tokens and they can be fed. -/
structure EachJudged (frames : List (List Int)) (probes : List Probe) : Prop where
  own : OwnFrames (fun tick => frames[tick]?) probes
  reached : ∀ tick ids, frames[tick]? = some ids → 2 ≤ ids.length → answers.Succeed tick →
    ∃ probe ∈ probes, probe.tick = tick

/-- The heartbeat judges every event in its own context, as the oracle and the capture do. -/
structure JudgesInContext : Prop where
  heartbeat : EachJudged answers (framed tables tok tape)
    (runLiHeartbeat tables tok answers tape).probes
  oracle : ∀ clean woken,
    OwnFrames (fun tick => ((parseKairosTape tables tape)[tick]?).bind fun event =>
      frameOf tok event.1) (runLiOracle tables tok clean tape woken)
  capture : ∀ clean labels kept,
    OwnFrames (fun tick => ((tapeEvents tables labels tape)[tick]?).bind fun event =>
      frameOf tok event.1) (runLiCapture tables tok clean tape labels kept)

end Runs

/-- The frame goes on behind the prefix, and no earlier tick has left tokens behind it. -/
def GoesOnClean (answers : KvAnswers) (frames : List (List Int)) (shared ids : List Int)
    (tick : Nat) : Prop :=
  shared <+: ids ∧ ∀ earlier ∈ frames.zipIdx.take tick, answers.prefill earlier.2 = true →
    answers.decode earlier.2 = false → earlier.1.length ≤ shared.length + 1

/-- What the frames and the answers must be for the prefix of the first two to serve all. -/
def SharesPrefix (answers : KvAnswers) (frames : List (List Int)) : Prop :=
  match frames with
  | first :: second :: _ =>
      let shared := first.take (commonPrefix first second)
      ∀ frame ∈ frames.zipIdx, answers.Succeed frame.2 →
        (2 ≤ frame.1.length → shared.length < frame.1.length) ∧
          (shared.length < frame.1.length → GoesOnClean answers frames shared frame.1 frame.2)
  | _ => ∀ frame ∈ frames.zipIdx, answers.Succeed frame.2 → frame.1.length < 2

instance (answers : KvAnswers) (frames : List (List Int)) (shared ids : List Int) (tick : Nat) :
    Decidable (GoesOnClean answers frames shared ids tick) :=
  inferInstanceAs (Decidable (_ ∧ _))

instance (answers : KvAnswers) : ∀ frames, Decidable (SharesPrefix answers frames)
  | [] => inferInstanceAs (Decidable (∀ frame ∈ _, _))
  | [_] => inferInstanceAs (Decidable (∀ frame ∈ _, _))
  | _ :: _ :: _ => inferInstanceAs (Decidable (∀ frame ∈ _, _))

/-! ## The shared prefix -/

theorem sharedLength_eq (first second : List Int) :
    sharedLength first second = commonPrefix first second := by
  induction first generalizing second with
  | nil =>
      rw [sharedLength, List.length_nil, Nat.zero_min]
      rfl
  | cons left lefts inductionHypothesis =>
      cases second with
      | nil => rfl
      | cons right rights =>
          rw [sharedLength, List.length_cons, List.length_cons, Nat.add_min_add_right,
            List.range_succ_eq_map, List.find?_cons, commonPrefix]
          by_cases same : left = right
          · subst same
            have later : ((fun k => decide ((left :: lefts)[k]? ≠ (left :: rights)[k]?)) ∘ Nat.succ) =
                fun k => decide (lefts[k]? ≠ rights[k]?) := rfl
            have equal : decide ((left :: lefts)[0]? ≠ (left :: rights)[0]?) = false :=
              decide_eq_false fun differ => differ rfl
            rw [if_pos rfl, ← inductionHypothesis, sharedLength, equal, List.find?_map, later]
            exact Option.getD_map Nat.succ _ _
          · have differ : decide ((left :: lefts)[0]? ≠ (right :: rights)[0]?) = true :=
              decide_eq_true fun equal => same (Option.some.inj equal)
            rw [if_neg same, differ]
            rfl

/-! ## One tick and all ticks -/

section Ticks

variable (lcp : Nat) (answers : KvAnswers)

/-- The tokens that a tick leaves behind the prefix. -/
def leftBehind (frame : List Int × Nat) : List Int :=
  if answers.prefill frame.2 = true ∧ answers.decode frame.2 = false then
    (frame.1.take (frame.1.length - 1)).drop lcp
  else []

/-- The tick is judged. -/
def Judged (frame : List Int × Nat) : Prop :=
  lcp < frame.1.length ∧ answers.prefill frame.2 = true ∧ answers.decode frame.2 = true

instance (frame : List Int × Nat) : Decidable (Judged lcp answers frame) :=
  inferInstanceAs (Decidable (_ ∧ _))

variable {lcp answers}

theorem drop_take_pred {ids : List Int} (longer : lcp < ids.length) :
    (ids.take (ids.length - 1)).drop lcp ++ ids.drop (ids.length - 1) = ids.drop lcp := by
  have inside : lcp ≤ (ids.take (ids.length - 1)).length := by
    rw [List.length_take]
    omega
  rw [← List.drop_append_of_le_length inside, List.take_append_drop]

theorem leftBehind_eq_nil_iff (frame : List Int × Nat) :
    leftBehind lcp answers frame = [] ↔ (answers.prefill frame.2 = true →
      answers.decode frame.2 = false → frame.1.length ≤ lcp + 1) := by
  rw [leftBehind]
  split
  next stopped =>
    rw [List.drop_eq_nil_iff, List.length_take, min_eq_left (Nat.sub_le _ _)]
    exact ⟨fun short _ _ => Nat.le_add_of_sub_le short,
      fun short => Nat.sub_le_of_le_add (short stopped.1 stopped.2)⟩
  next through => exact ⟨fun _ fed closed => absurd ⟨fed, closed⟩ through, fun _ => rfl⟩

theorem heartbeatTick_eq (state : Heartbeat) (frame : List Int × Nat) :
    heartbeatTick lcp answers state frame =
      ⟨state.cache ++ leftBehind lcp answers frame, state.probes ++
        if Judged lcp answers frame then [⟨frame.2, state.cache ++ frame.1.drop lcp⟩] else []⟩ := by
  obtain ⟨ids, i⟩ := frame
  by_cases short : ids.length ≤ lcp
  · have nothing : leftBehind lcp answers (ids, i) = [] :=
      (leftBehind_eq_nil_iff _).mpr fun _ _ => Nat.le_succ_of_le short
    have passed : ¬ Judged lcp answers (ids, i) := fun judged => Nat.not_lt.mpr short judged.1
    rw [nothing, if_neg passed, List.append_nil, List.append_nil]
    exact if_pos short
  · have longer := Nat.not_le.mp short
    rw [heartbeatTick, leftBehind]
    cases fed : answers.prefill i with
    | false => simp [Judged, fed]
    | true =>
        cases closed : answers.decode i with
        | false => simp [Judged, closed, short]
        | true =>
            have judged : Judged lcp answers (ids, i) := ⟨longer, fed, closed⟩
            have rewound : (state.cache ++ ids.drop lcp).take
                ((state.cache ++ ids.drop lcp).length - (ids.length - lcp)) = state.cache := by
              rw [List.length_append, List.length_drop, Nat.add_sub_cancel]
              exact List.take_left
            rw [if_pos judged]
            simp only [if_neg short, List.append_assoc, drop_take_pred longer, rewound,
              Bool.true_eq_false, if_false, and_false, List.append_nil]

/-- The probes of some ticks: of each judged one, with all that was left behind before it. -/
theorem mem_ticks_probes {frames : List (List Int × Nat)} {state : Heartbeat} {probe : Probe} :
    probe ∈ (frames.foldl (heartbeatTick lcp answers) state).probes ↔
      probe ∈ state.probes ∨ ∃ m frame, frames[m]? = some frame ∧ Judged lcp answers frame ∧
        probe = ⟨frame.2, state.cache ++ (frames.take m).flatMap (leftBehind lcp answers) ++
          frame.1.drop lcp⟩ := by
  induction frames generalizing state with
  | nil => simp
  | cons frame rest inductionHypothesis =>
      rw [List.foldl_cons, inductionHypothesis, heartbeatTick_eq]
      dsimp only
      constructor
      · rintro (known | ⟨m, later, position, judged, rfl⟩)
        · rcases List.mem_append.mp known with old | new
          · exact Or.inl old
          · split at new
            next judged =>
              refine Or.inr ⟨0, frame, rfl, judged, ?_⟩
              rw [List.mem_singleton.mp new, List.take_zero, List.flatMap_nil, List.append_nil]
            next => cases new
        · refine Or.inr ⟨m + 1, later, position, judged, ?_⟩
          rw [List.take_succ_cons, List.flatMap_cons, ← List.append_assoc state.cache]
      · rintro (old | ⟨m, later, position, judged, rfl⟩)
        · exact Or.inl (List.mem_append_left _ old)
        · cases m with
          | zero =>
              obtain rfl : frame = later := Option.some.inj position
              rw [if_pos judged, List.take_zero, List.flatMap_nil, List.append_nil]
              exact Or.inl (List.mem_append_right _ (List.mem_singleton_self _))
          | succ m =>
              refine Or.inr ⟨m, later, position, judged, ?_⟩
              rw [List.take_succ_cons, List.flatMap_cons, ← List.append_assoc state.cache]

/-- A judged tick sees its own frame exactly where the frame goes on behind the prefix. -/
theorem cache_eq_iff {shared left ids : List Int} (size : shared.length = lcp)
    (longer : lcp < ids.length) :
    ids = shared ++ left ++ ids.drop lcp ↔ shared <+: ids ∧ left = [] := by
  constructor
  · intro whole
    have lengths := congrArg List.length whole
    rw [List.length_append, List.length_append, List.length_drop, size] at lengths
    have empty : left = [] := List.length_eq_zero_iff.mp (by omega)
    rw [empty, List.append_nil] at whole
    exact ⟨⟨ids.drop lcp, whole.symm⟩, empty⟩
  · rintro ⟨⟨rest, rfl⟩, rfl⟩
    rw [← size, List.drop_left, List.append_nil]

theorem goesOnClean_iff {frames : List (List Int)} {shared ids : List Int} {tick : Nat}
    (size : shared.length = lcp) :
    GoesOnClean answers frames shared ids tick ↔
      shared <+: ids ∧ (frames.zipIdx.take tick).flatMap (leftBehind lcp answers) = [] := by
  rw [GoesOnClean, List.flatMap_eq_nil_iff, size]
  refine and_congr_right fun _ => forall₂_congr fun earlier _ => ?_
  exact (leftBehind_eq_nil_iff earlier).symm

theorem mem_zipIdx_probes {frames : List (List Int)} {shared : List Int} {probe : Probe} :
    probe ∈ (frames.zipIdx.foldl (heartbeatTick lcp answers) ⟨shared, []⟩).probes ↔
      ∃ frame ∈ frames.zipIdx, Judged lcp answers frame ∧ probe = ⟨frame.2, shared ++
        (frames.zipIdx.take frame.2).flatMap (leftBehind lcp answers) ++ frame.1.drop lcp⟩ := by
  rw [mem_ticks_probes, or_iff_right List.not_mem_nil]
  constructor
  · rintro ⟨m, frame, position, judged, rfl⟩
    have index : frame.2 = m := by
      rw [List.getElem?_zipIdx, Option.map_eq_some_iff] at position
      obtain ⟨ids, -, rfl⟩ := position
      exact Nat.zero_add m
    exact ⟨frame, List.mem_of_getElem? position, judged, by rw [index]⟩
  · rintro ⟨⟨ids, tick⟩, member, judged, rfl⟩
    have present := List.mem_zipIdx_iff_getElem?.mp member
    refine ⟨tick, (ids, tick), ?_, judged, rfl⟩
    rw [List.getElem?_zipIdx, Option.map_eq_some_iff]
    exact ⟨ids, present, by rw [Nat.zero_add]⟩

theorem ticks_each_iff {frames : List (List Int)} {shared : List Int}
    (contract : answers.contract = true) (size : shared.length = lcp) :
    EachJudged answers frames
        (frames.zipIdx.foldl (heartbeatTick lcp answers) ⟨shared, []⟩).probes ↔
      ∀ frame ∈ frames.zipIdx, answers.Succeed frame.2 →
        (2 ≤ frame.1.length → lcp < frame.1.length) ∧
          (lcp < frame.1.length → GoesOnClean answers frames shared frame.1 frame.2) := by
  constructor
  · rintro ⟨own, reached⟩ ⟨ids, tick⟩ member succeed
    have present := List.mem_zipIdx_iff_getElem?.mp member
    constructor
    · intro enough
      obtain ⟨probe, mem, rfl⟩ := reached tick ids present enough succeed
      obtain ⟨⟨other, index⟩, found, judged, rfl⟩ := mem_zipIdx_probes.mp mem
      have same := (List.mem_zipIdx_iff_getElem?.mp found).symm.trans present
      exact Option.some.inj same ▸ judged.1
    · intro longer
      have seen := own _ (mem_zipIdx_probes.mpr ⟨(ids, tick), member, ⟨longer, succeed.2⟩, rfl⟩)
      have whole := Option.some.inj (present.symm.trans seen)
      exact (goesOnClean_iff size).mpr ((cache_eq_iff size longer).mp whole)
  · intro clean
    refine ⟨fun probe mem => ?_, fun tick ids present enough succeed => ?_⟩
    · obtain ⟨⟨ids, tick⟩, member, judged, rfl⟩ := mem_zipIdx_probes.mp mem
      have continues := (clean _ member ⟨contract, judged.2⟩).2 judged.1
      have whole := (cache_eq_iff size judged.1).mpr ((goesOnClean_iff size).mp continues)
      exact (List.mem_zipIdx_iff_getElem?.mp member).trans (congrArg some whole)
    · have member : (ids, tick) ∈ frames.zipIdx := List.mem_zipIdx_iff_getElem?.mpr present
      have longer := (clean _ member succeed).1 enough
      exact ⟨_, mem_zipIdx_probes.mpr ⟨(ids, tick), member, ⟨longer, succeed.2⟩, rfl⟩, rfl⟩

end Ticks

/-! ## The passes that reset -/

section Clean

variable {answers : KvAnswers} {kept : Nat → Bool} {woken : Nat → List Int}
  {frame : Nat → Option (List Int)}

theorem cleanTick_own {state : Heartbeat} {event : Option (List Int) × Nat}
    (known : frame event.2 = event.1) (own : OwnFrames frame state.probes) :
    OwnFrames frame (cleanTick answers kept woken state event).probes := by
  obtain ⟨found, i⟩ := event
  cases found with
  | none => exact own
  | some ids =>
      rw [cleanTick]
      dsimp only
      split
      next => exact own
      next =>
        split
        next => exact own
        next =>
          split
          next => exact own
          next =>
            split
            next =>
              intro probe member
              rcases List.mem_append.mp member with old | new
              · exact own probe old
              · rw [List.mem_singleton.mp new, List.take_append_drop]
                exact known
            next => exact own

theorem clean_own {events : List (Option (List Int) × Nat)}
    (known : ∀ event ∈ events, frame event.2 = event.1) {state : Heartbeat}
    (own : OwnFrames frame state.probes) :
    OwnFrames frame (events.foldl (cleanTick answers kept woken) state).probes := by
  induction events generalizing state with
  | nil => exact own
  | cons event rest inductionHypothesis =>
      rw [List.forall_mem_cons] at known
      exact inductionHypothesis known.2 (cleanTick_own known.1 own)

/-- A pass that resets judges every event in its own context. -/
theorem clean_run_own (tok : SptbTokenizer) (events : List (Text × Nat)) :
    OwnFrames (fun tick => (events[tick]?).bind fun event => frameOf tok event.1)
      ((events.map fun event => frameOf tok event.1).zipIdx.foldl (cleanTick answers kept woken)
        ⟨[], []⟩).probes := by
  refine clean_own (fun entry member => ?_) (fun _ none => absurd none List.not_mem_nil)
  have present := List.mem_zipIdx_iff_getElem?.mp member
  rw [List.getElem?_map, Option.map_eq_some_iff] at present
  obtain ⟨event, found, same⟩ := present
  rw [found]
  exact same

end Clean

/-! ## The heartbeat -/

section Whole

variable {tables : Unicode} {tok : SptbTokenizer} {answers : KvAnswers} {tape : Text}

theorem each_of_no_probes_iff {frames : List (List Int)} :
    EachJudged answers frames [] ↔
      ∀ frame ∈ frames.zipIdx, answers.Succeed frame.2 → frame.1.length < 2 := by
  constructor
  · rintro each ⟨ids, tick⟩ member succeed
    by_contra enough
    have present := List.mem_zipIdx_iff_getElem?.mp member
    obtain ⟨probe, none, -⟩ := each.reached tick ids present (Nat.not_lt.mp enough) succeed
    cases none
  · refine fun short => ⟨fun _ none => absurd none List.not_mem_nil, ?_⟩
    intro tick ids present enough succeed
    have member : (ids, tick) ∈ frames.zipIdx := List.mem_zipIdx_iff_getElem?.mpr present
    exact absurd enough (Nat.not_le.mpr (short _ member succeed))

theorem heartbeatOver_each_iff (frames : List (List Int)) :
    EachJudged answers frames (heartbeatOver answers frames).probes ↔
      SharesPrefix answers frames := by
  match frames with
  | [] => exact each_of_no_probes_iff
  | [only] => exact each_of_no_probes_iff
  | first :: second :: rest =>
      cases contract : answers.contract with
      | false =>
          have none : ∀ tick, ¬ answers.Succeed tick := fun tick succeed =>
            Bool.false_ne_true (contract.symm.trans succeed.1)
          have refused : (heartbeatOver answers (first :: second :: rest)).probes = [] := by
            rw [heartbeatOver]
            exact congrArg HeartbeatEnd.probes (if_pos contract)
          rw [refused, each_of_no_probes_iff]
          exact ⟨fun _ frame _ succeed => absurd succeed (none frame.2),
            fun _ frame _ succeed => absurd succeed (none frame.2)⟩
      | true =>
          have size : (first.take (commonPrefix first second)).length = commonPrefix first second :=
            List.length_take_of_le (commonPrefix_le_left first second)
          have run : (heartbeatOver answers (first :: second :: rest)).probes =
              ((first :: second :: rest).zipIdx.foldl
                (heartbeatTick (commonPrefix first second) answers)
                ⟨first.take (commonPrefix first second), []⟩).probes := by
            have sent : ¬ answers.contract = false := Bool.not_eq_false _ ▸ contract
            rw [← sharedLength_eq, heartbeatOver]
            exact congrArg HeartbeatEnd.probes (if_neg sent)
          rw [run, ticks_each_iff contract size, SharesPrefix, size]

/-- The heartbeat judges every event in its own context exactly where its prefix serves all. -/
theorem judgesInContext_iff (enough : 2 ≤ (parseKairosTape tables tape).length) :
    JudgesInContext tables tok answers tape ↔ SharesPrefix answers (framed tables tok tape) := by
  have run : runLiHeartbeat tables tok answers tape =
      heartbeatOver answers (framed tables tok tape) := if_neg (Nat.not_lt.mpr enough)
  rw [← heartbeatOver_each_iff, ← run]
  exact ⟨JudgesInContext.heartbeat, fun each => ⟨each, fun _ _ => clean_run_own tok _,
    fun _ _ _ => clean_run_own tok _⟩⟩

end Whole

/-- A tokenizer with one token for a text of some length, between two marks. -/
def lengthTokens : SptbTokenizer where
  archId := 2
  vocab := []
  encoder := .crate fun text => .ok [1, text.length, 2]
  thinking := false

/-- No call fails. -/
def allSucceed : KvAnswers := ⟨true, fun _ => true, fun _ => true⟩

/-- An idle tick, then a file that has changed. -/
def idleThenFile : Text :=
  "0 heartbeat - 0.1 NO_OP\n1 file_changed \"a.rs\" 0.9 ACTION\n".toList

/-- Two idle ticks. -/
def idleTwice : Text := "0 heartbeat - 0.1 NO_OP\n1 heartbeat - 0.1 NO_OP\n".toList

theorem judgesInContext_iff_differing :
    JudgesInContext .ascii lengthTokens allSucceed idleThenFile := by
  have frames : framed .ascii lengthTokens idleThenFile = [[1, 427, 2], [1, 445, 2]] := by
    decide +kernel
  refine (judgesInContext_iff (by decide +kernel)).mpr ?_
  rw [frames]
  decide

/-- Neither of two equal idle ticks is judged. -/
theorem judgesInContext_fails : ¬ JudgesInContext .ascii lengthTokens allSucceed idleTwice := by
  intro judges
  have frames : framed .ascii lengthTokens idleTwice = [[1, 427, 2], [1, 427, 2]] := by
    decide +kernel
  have run : runLiHeartbeat .ascii lengthTokens allSucceed idleTwice =
      heartbeatOver allSucceed (framed .ascii lengthTokens idleTwice) := if_neg (by decide +kernel)
  have each := judges.heartbeat
  rw [run, frames] at each
  obtain ⟨probe, member, -⟩ := each.reached 1 [1, 427, 2] rfl (by decide) ⟨rfl, rfl, rfl⟩
  cases member

end KairosEngine.Daemon
