import KairosEngine.Daemon.GreedyPickers
import KairosEngine.Daemon.Lexical
import KairosEngine.Library.Continuation
import KairosEngine.Library.Loop
import KairosEngine.Library.Utf8

/-!
# The kernel heartbeat with idle pruning

`run_kairos_alpha` frames every event of a tape on one session, decodes the reply greedily and
rewinds the session after an idle one.  It then prints the first 48 bytes of the reply, which is a
panic where they end inside a character.
-/

namespace KairosEngine.Daemon

open KairosEngine.Library

/-! ## Events and texts -/

/-- `kairos::Decision`. -/
inductive Decision where
  | noop
  | action
  deriving DecidableEq

/-- `salience` is given by the bits of the single. -/
structure TapeEvent where
  tickIdx : UInt64
  kind : Text
  payload : Text
  salience : UInt32
  expect : Decision
  deriving DecidableEq

/-- The nearest hundredth of `mantissa * 2 ^ exponent / 2 ^ 149`, a tie to the even one. -/
def hundredths (mantissa exponent : Nat) : Nat :=
  let scaled := 100 * mantissa * 2 ^ exponent
  let whole := scaled / 2 ^ 149
  let rest := scaled % 2 ^ 149
  if 2 ^ 148 < rest ∨ rest = 2 ^ 148 ∧ whole % 2 = 1 then whole + 1 else whole

/-- `{:.2}` of a single. -/
def fixed2 (bits : UInt32) : Text :=
  let sign := if bits.toNat / 2 ^ 31 = 1 then ['-'] else []
  let exponent := bits.toNat / 2 ^ 23 % 2 ^ 8
  let fraction := bits.toNat % 2 ^ 23
  if exponent = 255 then
    if fraction = 0 then sign ++ "inf".toList else "NaN".toList
  else
    let count := hundredths (if exponent = 0 then fraction else fraction + 2 ^ 23) (exponent - 1)
    sign ++ Nat.toDigits 10 (count / 100) ++
      ['.', Nat.digitChar (count / 10 % 10), Nat.digitChar (count % 10)]

example : fixed2 0x3F000000 = "0.50".toList := by decide +kernel
example : fixed2 0x3DCCCCCD = "0.10".toList := by decide +kernel
example : fixed2 0xBE000000 = "-0.12".toList := by decide +kernel

/-- `SYSTEM_CONTRACT`. -/
def systemContract : Text :=
  "You are a background kernel daemon. ".toList ++
    "Each tick you receive one environment event.\n".toList ++
    "Most events require no action. ".toList ++ "Reply with EXACTLY one of:\n".toList ++
    "NO_OP\n".toList ++ "<ACTION>short imperative</ACTION>\n".toList ++
    "Reply NO_OP unless the event ".toList ++ "genuinely requires intervention. ".toList ++
    "Do not explain.\n".toList

/-- `SYSTEM_CONTRACT_SALIENCE`. -/
def systemContractSalience : Text :=
  "You are a background kernel daemon. ".toList ++
    "Each tick you receive one environment event\n".toList ++
    "that carries a salience score between 0.0 and 1.0. ".toList ++
    "Reply with EXACTLY one of:\n".toList ++
    "NO_OP\n".toList ++ "<ACTION>short imperative</ACTION>\n".toList ++
    "RULE: if salience >= 0.5 the event requires intervention, ".toList ++
    "so reply with an\n<ACTION> line. ".toList ++ "If salience < 0.5, reply NO_OP. ".toList ++
    "Follow the rule exactly. ".toList ++ "Do not explain.\n".toList

def eventBody (ev : TapeEvent) : Text :=
  let payload := if ev.payload = [] then ['-'] else ev.payload
  "EVENT kind=".toList ++ ev.kind ++ " salience=".toList ++ fixed2 ev.salience ++
    " payload=\"".toList ++ payload ++ ['"']

def framePromptRaw (ev : TapeEvent) : Text :=
  '\n' :: eventBody ev ++ "\nDECISION: ".toList

def framePromptGemma (ev : TapeEvent) : Text :=
  "<start_of_turn>user\n".toList ++ eventBody ev ++
    "<end_of_turn>\n<start_of_turn>model\n".toList

/-- `nothink` is `SP_KAIROS_NOTHINK=1`. -/
def framePromptChatml (nothink : Bool) (ev : TapeEvent) : Text :=
  let assistantPrime :=
    if nothink then "<|im_start|>assistant\n<think>\n\n</think>\n\n" else "<|im_start|>assistant\n"
  "<|im_start|>user\n".toList ++ eventBody ev ++ "<|im_end|>\n".toList ++ assistantPrime.toList

inductive DecisionParse where
  | noop
  | action
  | malformed
  deriving DecidableEq

def toAsciiUppercase (text : Text) : Text := text.map Char.toUpper

def parseDecision (tables : Unicode) (text : Text) : DecisionParse :=
  let up := toAsciiUppercase (tables.trim text)
  if textContains "<ACTION>".toList up then .action
  else if textContains "NO_OP".toList up || textContains "NOOP".toList up then .noop
  else .malformed

/-- A complete decision has been decoded. -/
def decisionComplete (bytes : List UInt8) : Bool :=
  let up := toAsciiUppercase (fromUtf8Lossy bytes)
  textContains "</ACTION>".toList up || textContains "NO_OP".toList up ||
    textContains "NOOP".toList up

/-- `&text[..count]`; a cut inside a character or past the end is a panic. -/
def sliceTo : Text → Nat → Option Text
  | _, 0 => some []
  | [], _ + 1 => none
  | c :: rest, count + 1 =>
      if c.utf8Size ≤ count + 1 then (sliceTo rest (count + 1 - c.utf8Size)).map (c :: ·) else none

/-- The reply as the log line shows it. -/
def shown (raw : Text) : Option Text :=
  if utf8Len raw > 48 then sliceTo raw 48 else some raw

/-! ## The run -/

structure AlphaTick where
  tickIdx : UInt64
  expect : Decision
  decided : DecisionParse
  raw : Text
  sessionPos : Nat
  deriving DecidableEq

structure AlphaCounters where
  ticks : Nat
  noopCorrect : Nat
  actionCorrect : Nat
  falseActions : Nat
  missedEvents : Nat
  malformed : Nat

def AlphaCounters.observe (counters : AlphaCounters) (expect : Decision)
    (decided : DecisionParse) : AlphaCounters :=
  let counters := { counters with ticks := counters.ticks + 1 }
  match expect, decided with
  | .noop, .noop => { counters with noopCorrect := counters.noopCorrect + 1 }
  | .action, .action => { counters with actionCorrect := counters.actionCorrect + 1 }
  | .noop, .action => { counters with falseActions := counters.falseActions + 1 }
  | .action, .noop => { counters with missedEvents := counters.missedEvents + 1 }
  | _, .malformed => { counters with malformed := counters.malformed + 1 }

/-- The environment, the tokenizer, and a session whose logits depend on the tokens it holds. -/
structure KairosAlpha where
  chatml : Bool
  nothink : Bool
  prune : Bool
  policySalience : Bool
  useGemma : Bool
  tables : Unicode
  encode : Text → List Int
  decodeToken : Int → List UInt8
  eosIds : List Int
  logits : List Int → List Ieee

/-- `SpSession::rewind`. -/
def rewindSession (history : List Int) (count : Nat) : List Int :=
  history.take (history.length - count)

structure AlphaState where
  history : List Int
  log : List AlphaTick
  counters : AlphaCounters

namespace KairosAlpha

variable (alpha : KairosAlpha)

/-- The rounds of the decode loop: the tokens that the session holds and the decoded bytes. -/
def decodeRounds : Nat → List Int → List UInt8 → List Int × List UInt8
  | 0, history, bytes => (history, bytes)
  | rounds + 1, history, bytes =>
      let next := dialogueArgmax (alpha.logits history)
      if next ∈ alpha.eosIds then (history, bytes)
      else if decisionComplete (bytes ++ alpha.decodeToken next) then
        (history, bytes ++ alpha.decodeToken next)
      else decodeRounds rounds (history ++ [next]) (bytes ++ alpha.decodeToken next)

/-- `decode_decision`, with the tokens that the session holds afterwards. -/
def decodeDecision (history frameTokens : List Int) : List Int × Text :=
  if frameTokens = [] then (history, [])
  else
    let (history, bytes) := alpha.decodeRounds 24 (history ++ frameTokens) []
    (history, alpha.tables.trim (fromUtf8Lossy bytes))

def frame (ev : TapeEvent) : Text :=
  if alpha.chatml && alpha.useGemma then framePromptGemma ev
  else if alpha.chatml then framePromptChatml alpha.nothink ev
  else framePromptRaw ev

def sysText : Text :=
  let contract := if alpha.policySalience then systemContractSalience else systemContract
  if alpha.chatml && alpha.useGemma then
    "<start_of_turn>user\n".toList ++ alpha.tables.trim contract ++
      "<end_of_turn>\n<start_of_turn>model\nUnderstood.<end_of_turn>\n".toList
  else if alpha.chatml then
    "<|im_start|>system\n".toList ++ alpha.tables.trim contract ++ "<|im_end|>\n".toList
  else contract

/-- The session after a tick: an idle one that grew it is taken back. -/
def pruned (before after : List Int) (decided : DecisionParse) : List Int :=
  if alpha.prune ∧ decided = .noop ∧ before.length < after.length then
    rewindSession after (after.length - before.length)
  else after

/-- One round of the tick loop. -/
def tick (ev : TapeEvent) (state : AlphaState) : Option AlphaState :=
  let (history, raw) := alpha.decodeDecision state.history (alpha.encode (alpha.frame ev))
  let decided := parseDecision alpha.tables raw
  let history := alpha.pruned state.history history decided
  let record : AlphaTick := ⟨ev.tickIdx, ev.expect, decided, raw, history.length⟩
  (shown raw).map fun _ =>
    { history, log := state.log ++ [record], counters := state.counters.observe ev.expect decided }

/-- The session once the contract is seated. -/
def seated : AlphaState :=
  { history := alpha.encode alpha.sysText, log := [], counters := ⟨0, 0, 0, 0, 0, 0⟩ }

/-- `run_kairos_alpha` on a loaded tape. -/
def run (tape : List TapeEvent) : Option AlphaState := runEach alpha.tick tape alpha.seated

/-! ## What a run should leave behind -/

/-- The greedy choice after these tokens. -/
def greedyPick (tokens : List Int) : Int := dialogueArgmax (alpha.logits tokens)

/-- The bytes of the tokens up to a complete decision or an end of sequence, after those said. -/
def cutReply (said : List UInt8) : List Int → List UInt8
  | [] => said
  | next :: rest =>
      if next ∈ alpha.eosIds then said
      else if decisionComplete (said ++ alpha.decodeToken next) then said ++ alpha.decodeToken next
      else cutReply (said ++ alpha.decodeToken next) rest

/-- The model's reply to an event after these tokens: its greedy continuation, cut. -/
def reply (history : List Int) (ev : TapeEvent) : Text :=
  let frameTokens := alpha.encode (alpha.frame ev)
  if frameTokens = [] then []
  else
    let greedy := continuation alpha.greedyPick (history ++ frameTokens) 24
    alpha.tables.trim (fromUtf8Lossy (alpha.cutReply [] greedy))

/-- At most 48 bytes, or a character begins after 48. -/
def Printable (text : Text) : Prop :=
  utf8Len text ≤ 48 ∨ ∃ start, start <+: text ∧ utf8Len start = 48

/-- The run ends, and every tick judged idle could have been left out of the tape. -/
def LeavesNoTrace (tape : List TapeEvent) : Prop :=
  ∃ final, alpha.run tape = some final ∧
    ∀ k idle, final.log[k]? = some idle → idle.decided = .noop →
      ∃ other, alpha.run (tape.eraseIdx k) = some other ∧ other.log = final.log.eraseIdx k

variable {alpha}

theorem sliceTo_succeeds_iff (text : Text) (count : Nat) :
    (∃ start, sliceTo text count = some start) ↔
      ∃ start, start <+: text ∧ utf8Len start = count := by
  induction text generalizing count with
  | nil =>
      cases count with
      | zero => exact ⟨fun _ => ⟨[], List.prefix_rfl, rfl⟩, fun _ => ⟨[], by rw [sliceTo]⟩⟩
      | succ count =>
          constructor
          · rintro ⟨start, sliced⟩
            cases sliced
          · rintro ⟨start, initial, length⟩
            rw [List.prefix_nil.mp initial] at length
            cases length
  | cons c rest inductionHypothesis =>
      cases count with
      | zero =>
          exact ⟨fun _ => ⟨[], List.nil_prefix, rfl⟩, fun _ => ⟨[], by rw [sliceTo]⟩⟩
      | succ count =>
          rw [sliceTo]
          constructor
          · rintro ⟨start, sliced⟩
            split at sliced
            next fits =>
              obtain ⟨tail, cut, -⟩ := Option.map_eq_some_iff.mp sliced
              obtain ⟨later, initial, length⟩ := (inductionHypothesis _).mp ⟨tail, cut⟩
              refine ⟨c :: later, List.cons_prefix_cons.mpr ⟨rfl, initial⟩, ?_⟩
              rw [utf8Len_cons, length]
              exact Nat.add_sub_cancel' fits
            next => cases sliced
          · rintro ⟨start, initial, length⟩
            cases start with
            | nil => cases length
            | cons first later =>
                obtain ⟨rfl, within⟩ := List.cons_prefix_cons.mp initial
                rw [utf8Len_cons] at length
                have fits : first.utf8Size ≤ count + 1 := length ▸ Nat.le_add_right _ _
                have left : utf8Len later = count + 1 - first.utf8Size :=
                  Nat.eq_sub_of_add_eq' length
                obtain ⟨tail, cut⟩ := (inductionHypothesis _).mpr ⟨later, within, left⟩
                exact ⟨first :: tail, by rw [if_pos fits, cut, Option.map_some]⟩

theorem shown_succeeds_iff (raw : Text) : (∃ line, shown raw = some line) ↔ Printable raw := by
  rw [shown, Printable]
  split
  next long =>
    rw [sliceTo_succeeds_iff]
    exact (or_iff_right (Nat.not_le.mpr long)).symm
  next short => exact ⟨fun _ => Or.inl (Nat.not_lt.mp short), fun _ => ⟨raw, rfl⟩⟩

theorem decodeRounds_bytes (rounds : Nat) (history : List Int) (bytes : List UInt8) :
    (alpha.decodeRounds rounds history bytes).2 =
      alpha.cutReply bytes (continuation alpha.greedyPick history rounds) := by
  induction rounds generalizing history bytes with
  | zero => rfl
  | succ rounds inductionHypothesis =>
      rw [continuation_succ, cutReply, decodeRounds]
      by_cases ended : alpha.greedyPick history ∈ alpha.eosIds
      · rw [if_pos ended]
        exact congrArg Prod.snd (if_pos ended)
      · rw [if_neg ended]
        by_cases complete :
            decisionComplete (bytes ++ alpha.decodeToken (alpha.greedyPick history)) = true
        · rw [if_pos complete]
          exact congrArg Prod.snd ((if_neg ended).trans (if_pos complete))
        · rw [if_neg complete, ← inductionHypothesis]
          exact congrArg Prod.snd ((if_neg ended).trans (if_neg complete))

theorem decodeRounds_extends (rounds : Nat) (history : List Int) (bytes : List UInt8) :
    history <+: (alpha.decodeRounds rounds history bytes).1 := by
  induction rounds generalizing history bytes with
  | zero => exact List.prefix_rfl
  | succ rounds inductionHypothesis =>
      rw [decodeRounds]
      split
      next => exact List.prefix_rfl
      next =>
        split
        next => exact List.prefix_rfl
        next => exact (List.prefix_append _ _).trans (inductionHypothesis _ _)

theorem decodeDecision_text (history : List Int) (ev : TapeEvent) :
    (alpha.decodeDecision history (alpha.encode (alpha.frame ev))).2 = alpha.reply history ev := by
  rw [decodeDecision, reply]
  dsimp only
  split
  next => rfl
  next =>
    have bytes := @decodeRounds_bytes alpha 24 (history ++ alpha.encode (alpha.frame ev)) []
    exact congrArg (fun decoded => alpha.tables.trim (fromUtf8Lossy decoded)) bytes

theorem decodeDecision_extends (history frameTokens : List Int) :
    history <+: (alpha.decodeDecision history frameTokens).1 := by
  rw [decodeDecision]
  split
  next => exact List.prefix_rfl
  next => exact (List.prefix_append _ _).trans (decodeRounds_extends _ _ _)

/-- An idle tick is taken back to the token. -/
theorem pruned_idle (pruning : alpha.prune = true) {before after : List Int}
    (extends' : before <+: after) : alpha.pruned before after .noop = before := by
  rw [pruned]
  split
  next =>
    have length := extends'.length_le
    rw [rewindSession, Nat.sub_sub_self length]
    exact (List.prefix_iff_eq_take.mp extends').symm
  next kept =>
    have same : ¬ before.length < after.length := fun grew => kept ⟨pruning, rfl, grew⟩
    exact (extends'.eq_of_length_le (Nat.not_lt.mp same)).symm

/-! ## Ticks and runs -/

theorem tick_succeeds_iff (ev : TapeEvent) (state : AlphaState) :
    (∃ next, alpha.tick ev state = some next) ↔ Printable (alpha.reply state.history ev) := by
  rw [← decodeDecision_text, ← shown_succeeds_iff]
  constructor
  · rintro ⟨next, stepped⟩
    obtain ⟨line, printed, -⟩ := Option.map_eq_some_iff.mp stepped
    exact ⟨line, printed⟩
  · rintro ⟨line, printed⟩
    exact ⟨_, Option.map_eq_some_iff.mpr ⟨line, printed, rfl⟩⟩

/-- What a tick does to the session and appends to the log depends on the session only. -/
theorem tick_appends {ev : TapeEvent} {state next : AlphaState}
    (stepped : alpha.tick ev state = some next) :
    ∃ record, next.log = state.log ++ [record] ∧
      (alpha.prune = true → record.decided = .noop → next.history = state.history) ∧
      ∀ log counters, ∃ counted, alpha.tick ev ⟨state.history, log, counters⟩ =
        some ⟨next.history, log ++ [record], counted⟩ := by
  let decoded := alpha.decodeDecision state.history (alpha.encode (alpha.frame ev))
  obtain ⟨line, printed, rfl⟩ := Option.map_eq_some_iff.mp stepped
  refine ⟨_, rfl, fun pruning idle => ?_, fun log counters =>
    ⟨counters.observe ev.expect (parseDecision alpha.tables decoded.2), ?_⟩⟩
  · have noop : parseDecision alpha.tables decoded.2 = .noop := idle
    change alpha.pruned state.history decoded.1 (parseDecision alpha.tables decoded.2) = _
    rw [noop]
    exact pruned_idle pruning (decodeDecision_extends _ _)
  · exact Option.map_eq_some_iff.mpr ⟨line, printed, rfl⟩

theorem run_appends {tape : List TapeEvent} {state final : AlphaState}
    (run : runEach alpha.tick tape state = some final) :
    ∃ added, final.log = state.log ++ added ∧ added.length = tape.length ∧
      ∀ log counters, ∃ counted, runEach alpha.tick tape ⟨state.history, log, counters⟩ =
        some ⟨final.history, log ++ added, counted⟩ := by
  induction tape generalizing state with
  | nil =>
      cases run
      refine ⟨[], (List.append_nil _).symm, rfl, fun log counters => ⟨counters, ?_⟩⟩
      rw [List.append_nil, runEach]
  | cons ev rest inductionHypothesis =>
      obtain ⟨next, stepped, continued⟩ := Option.bind_eq_some_iff.mp run
      obtain ⟨record, first, -, again⟩ := tick_appends stepped
      obtain ⟨added, later, length, rerun⟩ := inductionHypothesis continued
      refine ⟨record :: added, ?_, congrArg Nat.succ length, fun log counters => ?_⟩
      · rw [later, first, List.append_assoc, List.singleton_append]
      · obtain ⟨middle, same⟩ := again log counters
        obtain ⟨counted, after⟩ := rerun (log ++ [record]) middle
        refine ⟨counted, Option.bind_eq_some_iff.mpr ⟨_, same, ?_⟩⟩
        rw [after, List.append_assoc, List.singleton_append]

/-- A run without one of its idle ticks logs the other ticks unchanged. -/
theorem run_without_idle (pruning : alpha.prune = true) {before after : List TapeEvent}
    {ev : TapeEvent} {final : AlphaState} {idle : AlphaTick}
    (run : alpha.run (before ++ ev :: after) = some final)
    (logged : final.log[before.length]? = some idle) (noop : idle.decided = .noop) :
    ∃ other, alpha.run (before ++ after) = some other ∧
      other.log = final.log.eraseIdx before.length := by
  obtain ⟨middle, first, rest⟩ := runEach_append_eq_some.mp run
  obtain ⟨next, stepped, continued⟩ := Option.bind_eq_some_iff.mp rest
  obtain ⟨earlier, log, length, -⟩ := run_appends first
  obtain ⟨record, grown, restored, -⟩ := tick_appends stepped
  obtain ⟨later, ended, -, rerun⟩ := run_appends continued
  rw [show alpha.seated.log = [] from rfl, List.nil_append] at log
  have whole : final.log = earlier ++ record :: later := by
    rw [ended, grown, log, List.append_assoc, List.singleton_append]
  rw [whole, ← length, List.getElem?_append_right (Nat.le_refl _), Nat.sub_self] at logged
  obtain rfl : record = idle := Option.some.inj logged
  obtain ⟨counted, skipped⟩ := rerun middle.log middle.counters
  rw [restored pruning noop] at skipped
  refine ⟨_, runEach_append_eq_some.mpr ⟨middle, first, skipped⟩, ?_⟩
  rw [whole, log, ← length, List.eraseIdx_append_of_length_le (Nat.le_refl _), Nat.sub_self,
    List.eraseIdx_cons_zero]

/-- With pruning, idle ticks leave no trace exactly where every reply can be printed. -/
theorem leavesNoTrace_iff (pruning : alpha.prune = true) (tape : List TapeEvent) :
    alpha.LeavesNoTrace tape ↔
      GuardedEach alpha.tick (fun ev state => Printable (alpha.reply state.history ev)) tape
        alpha.seated := by
  rw [← GuardedEach.succeeds_iff tick_succeeds_iff]
  constructor
  · rintro ⟨final, run, -⟩
    exact ⟨final, run⟩
  · rintro ⟨final, run⟩
    refine ⟨final, run, fun k idle logged noop => ?_⟩
    obtain ⟨added, log, length, -⟩ := run_appends run
    have inside : k < tape.length := by
      rw [← length, ← List.nil_append added, ← show final.log = [] ++ added from log]
      exact (List.getElem?_eq_some_iff.mp logged).1
    have split : tape = tape.take k ++ tape[k] :: tape.drop (k + 1) := by
      rw [← List.drop_eq_getElem_cons inside, List.take_append_drop]
    have position : (tape.take k).length = k := List.length_take_of_le (Nat.le_of_lt inside)
    rw [List.eraseIdx_eq_take_drop_succ]
    rw [split] at run
    rw [← position] at logged
    have without := run_without_idle pruning run logged noop
    rw [position] at without
    exact without

/-- A model that answers the first event with one word, up to ten times. -/
def parrot (word : Text) : KairosAlpha where
  chatml := true
  nothink := false
  prune := true
  policySalience := false
  useGemma := false
  tables := .ascii
  encode text := [text.length]
  decodeToken _ := utf8 word
  eosIds := [1]
  logits history := if history.length < 12 then [.finite 0] else [.finite 0, .finite 1]

/-- An idle event. -/
def heartbeat : TapeEvent := ⟨0, "heartbeat".toList, [], 0, .noop⟩

theorem leavesNoTrace_iff_idle : (parrot "NO_OP".toList).LeavesNoTrace [heartbeat, heartbeat] := by
  refine (leavesNoTrace_iff rfl _).mpr
    ⟨Or.inl ?_, fun next stepped => ⟨Or.inl ?_, fun _ _ => trivial⟩⟩
  · decide +kernel
  · have flat : ((parrot "NO_OP".toList).tick heartbeat (parrot "NO_OP".toList).seated).map
        AlphaState.history = some (parrot "NO_OP".toList).seated.history := by decide +kernel
    rw [stepped, Option.map_some] at flat
    rw [Option.some.inj flat]
    decide +kernel

/-- The reply drifts, and the log line cuts its last character in two. -/
theorem leavesNoTrace_fails : ¬ (parrot "NO克".toList).LeavesNoTrace [heartbeat] := by
  rintro ⟨final, run, -⟩
  have panics : (parrot "NO克".toList).run [heartbeat] = none := by decide +kernel
  rw [panics] at run
  cases run

end KairosAlpha

end KairosEngine.Daemon
