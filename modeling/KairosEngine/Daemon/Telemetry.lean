import Mathlib.Data.List.Infix
import KairosEngine.Daemon.RecallFrame

/-!
# The telemetry records of a recall turn

`telem_emit_recall` and `telem_emit_turn`, the records one turn hands to `telem_sink`,
and when two turns that answer from one private episode write records that differ in
nothing but hashes, lengths, times and scores.
-/

namespace KairosEngine.Daemon

open KairosEngine.Library Residency

/-- `f64::round`, halves away from zero. -/
def roundHalfAway : Ieee → Ieee
  | .finite value => .finite (if 0 ≤ value then (value + 1 / 2).floor else (value - 1 / 2).ceil)
  | other => other

/-- The `#` and sixteen hexadecimal digits of a redacted text. -/
def hashField (digest : UInt64) : Text :=
  '#' :: (Nat.toDigits 16 digest.toNat).leftpad 16 '0'

/-! ## Records -/

structure RecallRecord where
  ts : Nat
  query : Text
  redacted : Bool
  fired : Bool
  entry : String
  className : String
  cos : Ieee
  margin : Ieee
  delivery : String
  decision : String
  deriving DecidableEq

/-- The `output` field: the text, or its hash and length. -/
inductive OutputField where
  | clear (text : Text)
  | redacted (sha : Text) (len : Nat)
  deriving DecidableEq

structure TurnRecord where
  ts : Nat
  query : Text
  redacted : Bool
  entry : String
  className : String
  output : OutputField
  outLen : Nat
  nOut : Nat
  decodeS : Ieee
  tokS : Ieee
  obeyed : Option Bool
  deriving DecidableEq

inductive TelemetryRecord where
  | recallTurn (record : RecallRecord)
  | turn (record : TurnRecord)
  deriving DecidableEq

/-- What is left of a record once its hashes, lengths, times and scores are blanked. -/
def TelemetryRecord.mask : TelemetryRecord → TelemetryRecord
  | .recallTurn record =>
      .recallTurn { record with
        ts := 0
        query := if record.redacted then [] else record.query
        cos := .nan
        margin := .nan }
  | .turn record =>
      .turn { record with
        ts := 0
        query := if record.redacted then [] else record.query
        output :=
          match record.output with
          | .clear text => .clear text
          | .redacted _ _ => .redacted [] 0
        outLen := 0
        nOut := 0
        decodeS := .nan
        tokS := .nan }

/-! ## Emission -/

/-- The answer a turn streamed, at its end. -/
structure Answer where
  text : Text
  nOut : Nat
  decodeS : Ieee
  ts : Nat

/-- What the turns of one process share: the memories, the flags and the hasher;
`SP_TELEMETRY` is set. -/
structure TelemetryDaemon where
  tables : Unicode
  arith : Arithmetic
  geo : RecallGeometry
  tokenizer : TurnTokenizer
  registry : List Episode
  nightshift : List Episode
  flags : L5Flags
  hash : Text → UInt64

/-- What is a turn's own.  The lanes before L5 may recall or decline, and set none of the
telemetry locals; `answer` is `none` where the turn breaks off before its end. -/
structure TelemetryRequest where
  rawUser : Option Text
  origMsgs : Option (List Message)
  globalQ : Option (List Ieee)
  canonRun : SideRun
  rerankRun : SideRun
  deliverPrefill : Verdict
  earlier : Residency
  earlierLast : Int
  earlierRecalled : Option (String × Nat)
  earlierDecline : Option Text
  recallTs : Nat
  answer : Option Answer

namespace TelemetryDaemon

variable (daemon : TelemetryDaemon)

/-- `obeyed`: the answer uses a long word of the fact, or the fact has none. -/
def obeyed (output fact : Text) : Bool :=
  let lowered := daemon.tables.toLowercase output
  let salient := ((words daemon.tables.notAlphanumeric fact).filter fun word =>
    decide (4 ≤ utf8Len word)).map daemon.tables.toLowercase
  salient.isEmpty || salient.any fun word => decide (word <:+: lowered)

def telemEmitRecall (ts : Nat) (emit : RecallEmit) : RecallRecord :=
  let secret := decide (emit.className = "private-secret")
  { ts
    query := if secret then hashField (daemon.hash emit.query) else emit.query
    redacted := secret
    fired := decide (emit.decision = "deliver") || decide (emit.decision = "decline")
    entry := emit.entry
    className := emit.className
    cos := emit.cos
    margin := if emit.margin.isFinite then emit.margin else .finite (-1)
    delivery := emit.delivery
    decision := emit.decision }

def telemEmitTurn (query : Text) (entry className : String) (fact : Option Text) (secret : Bool)
    (answer : Answer) : TurnRecord :=
  let double := daemon.arith.double
  let tokS :=
    if (double.div (.finite 1) (.finite 1000)).lt answer.decodeS then
      double.div (double.round answer.nOut) answer.decodeS
    else .finite 0
  let rounded := fun scale number =>
    double.div (roundHalfAway (double.mul number (.finite scale))) (.finite scale)
  { ts := answer.ts
    query := if secret then hashField (daemon.hash query) else query
    redacted := secret
    entry
    className
    output :=
      if secret then .redacted (hashField (daemon.hash answer.text)) answer.text.length
      else .clear answer.text
    outLen := answer.text.length
    nOut := answer.nOut
    decodeS := rounded 1000 answer.decodeS
    tokS := rounded 100 tokS
    obeyed := fact.map (daemon.obeyed answer.text) }

/-- The turn as the L5 lane sees it. -/
def recallTurn (request : TelemetryRequest) : RecallTurn where
  tables := daemon.tables
  arith := daemon.arith
  geo := daemon.geo
  tokenizer := daemon.tokenizer
  registry := daemon.registry
  nightshift := daemon.nightshift
  rawUser := request.rawUser
  origMsgs := request.origMsgs
  jaccard := none
  l5 := some daemon.flags
  jaccardPrefill := .ok
  globalQ := request.globalQ
  canonRun := request.canonRun
  rerankRun := request.rerankRun
  deliverPrefill := request.deliverPrefill

/-- The locals as the lanes before L5 leave them. -/
def handed (request : TelemetryRequest) : Synthesis :=
  { Synthesis.start request.earlier request.earlierLast with
    recalled := request.earlierRecalled
    symbolicDecline := request.earlierDecline }

/-- The record of a turn that reaches its end with a recalled query. -/
def turnRecord (syn : Synthesis) (answer : Option Answer) : List TelemetryRecord :=
  match syn.symbolicDecline, syn.recalledQuery, answer with
  | none, some query, some answer =>
      [.turn (daemon.telemEmitTurn query ((syn.recalled.map Prod.fst).getD "-")
        (syn.recalledClass.getD "-") syn.recalledText syn.recalledSecret answer)]
  | _, _, _ => []

/-- What a turn hands to `telem_sink`, in order. -/
def records (request : TelemetryRequest) : List TelemetryRecord :=
  let syn := (daemon.recallTurn request).l5Stage (handed request)
  syn.emits.map (fun emit => .recallTurn (daemon.telemEmitRecall request.recallTs emit)) ++
    daemon.turnRecord syn request.answer

/-! ## What one turn writes -/

/-- The episode another lane recalled before L5, or L5 picked with a recorded outcome. -/
inductive Answers (request : TelemetryRequest) (ep : Episode) : Prop
  | earlier (milli : Nat) (recalled : request.earlierRecalled = some (ep.name, milli))
  | picked (pool : L5Pool) (unrecalled : request.earlierRecalled = none)
      (opened : (daemon.recallTurn request).l5Open = some (daemon.flags, pool))
      (name : ((daemon.recallTurn request).rerankPick daemon.flags pool).name = ep.name)
      (text : ((daemon.recallTurn request).rerankPick daemon.flags pool).text = ep.text)
      (recorded : (daemon.recallTurn request).L5Delivers daemon.flags pool ∨
        (daemon.recallTurn request).L5Declines daemon.flags pool ∨
        (daemon.recallTurn request).l5Verdict daemon.flags pool = .marginSkip)

end TelemetryDaemon

/-- The answer that is joined to a delivery: none behind a decline that already stood. -/
def TelemetryRequest.ended (request : TelemetryRequest) : Option Answer :=
  if request.earlierDecline = none then request.answer else none

def L5Verdict.decision : L5Verdict → String
  | .belowTau => ""
  | .decline _ => "decline"
  | .marginSkip => "margin-skip"
  | .deliver _ => "deliver"

def L5Verdict.delivery (flags : L5Flags) (policy : Option MemPolicy) : L5Verdict → String
  | .decline _ => "attr-gate-strict"
  | _ => deliveryMode flags policy

def className (policy : Option MemPolicy) : String := (policy.map MemPolicy.className).getD "-"

/-- The lookup found a private policy. -/
def redacts (policy : Option MemPolicy) : Bool :=
  policy.any fun policy => decide (policy.className = "private-secret")

theorem className_private_iff (policy : Option MemPolicy) :
    className policy = "private-secret" ↔ redacts policy = true := by
  cases policy with
  | none => simp [className, redacts]
  | some policy => simp [className, redacts]

theorem l5Dispatch_mode {tables : Unicode} {format : Format} {flags : L5Flags} {user : Text}
    {scored : List Scored} {margin : Ieee} {pick : Pick} {mode : String}
    (verdict : l5Dispatch tables format flags user scored margin pick = .deliver mode) :
    mode = deliveryMode flags (l5Policy flags.memPolicy scored pick.name) := by
  unfold l5Dispatch at verdict
  simp only at verdict
  split at verdict
  next =>
    split at verdict
    next => cases verdict
    next =>
      split at verdict
      next => cases verdict
      next => exact (L5Verdict.deliver.inj verdict).symm
  next => cases verdict

namespace TelemetryDaemon

variable (daemon : TelemetryDaemon)

/-- The turn record of a delivery from this pool. -/
def deliveredRecord (request : TelemetryRequest) (pool : L5Pool) (answer : Answer) :
    TelemetryRecord :=
  let turn := daemon.recallTurn request
  let pick := turn.rerankPick daemon.flags pool
  .turn (daemon.telemEmitTurn pool.user pick.name (className (turn.bpol daemon.flags pool))
    (some pick.text) (redacts (turn.bpol daemon.flags pool)) answer)

/-- The decision of the L5 lane, and behind a delivery the answer joined to it. -/
def l5Records (request : TelemetryRequest) (pool : L5Pool) : List TelemetryRecord :=
  let turn := daemon.recallTurn request
  let verdict := turn.l5Verdict daemon.flags pool
  .recallTurn (daemon.telemEmitRecall request.recallTs (turn.recallEmit daemon.flags pool
      (verdict.delivery daemon.flags (turn.bpol daemon.flags pool)) verdict.decision)) ::
    (if verdict.decision = "deliver" then
      request.ended.toList.map (daemon.deliveredRecord request pool) else [])

/-- Only a delivery of the L5 lane leaves a query to join. -/
theorem turnRecord_eq_nil {syn : Synthesis} (unasked : syn.recalledQuery = none)
    (answer : Option Answer) : daemon.turnRecord syn answer = [] := by
  unfold turnRecord
  split
  next _ asked =>
    rw [unasked] at asked
    cases asked
  next => rfl

theorem records_earlier {request : TelemetryRequest} {found : String × Nat}
    (recalled : request.earlierRecalled = some found) : daemon.records request = [] := by
  have stage : (daemon.recallTurn request).l5Stage (handed request) = handed request := by
    rw [RecallTurn.l5Stage, if_pos]
    simp [handed, recalled]
  rw [records]
  simp only [stage]
  rw [daemon.turnRecord_eq_nil rfl]
  rfl

theorem records_picked {request : TelemetryRequest} {pool : L5Pool}
    (unrecalled : request.earlierRecalled = none)
    (opened : (daemon.recallTurn request).l5Open = some (daemon.flags, pool))
    (recorded : (daemon.recallTurn request).L5Delivers daemon.flags pool ∨
      (daemon.recallTurn request).L5Declines daemon.flags pool ∨
      (daemon.recallTurn request).l5Verdict daemon.flags pool = .marginSkip) :
    daemon.records request = daemon.l5Records request pool := by
  have stage : (daemon.recallTurn request).l5Stage (handed request) =
      (daemon.recallTurn request).l5Finish daemon.flags pool
        { handed request with
          res := (daemon.recallTurn request).afterSidePasses daemon.flags pool request.earlier } := by
    rw [RecallTurn.l5Stage, if_neg (by simp [handed, unrecalled]), opened]
    rfl
  simp only [records, stage, l5Records]
  rcases recorded with ⟨mode, verdict, served, succeeds⟩ | ⟨message, verdict⟩ | verdict
  · obtain ⟨ids, served⟩ := Option.ne_none_iff_exists'.mp served
    have delivered : (daemon.recallTurn request).deliverPrefill = .ok := succeeds
    have framing := l5Dispatch_mode verdict
    simp only [RecallTurn.l5Finish, verdict, RecallTurn.l5Deliver, served, prefill_reset,
      delivered, if_true, L5Verdict.decision]
    subst framing
    cases declined : request.earlierDecline with
    | some message => simp [turnRecord, handed, TelemetryRequest.ended, declined, Synthesis.start,
        L5Verdict.delivery, RecallTurn.bpol]
    | none =>
        cases answered : request.answer with
        | none => simp [turnRecord, handed, TelemetryRequest.ended, declined, answered,
            Synthesis.start, L5Verdict.delivery, RecallTurn.bpol]
        | some answer => simp [turnRecord, handed, TelemetryRequest.ended, declined, answered,
            Synthesis.start, L5Verdict.delivery, RecallTurn.bpol, deliveredRecord,
            RecallTurn.recalledOf, className, redacts]
  · simp only [RecallTurn.l5Finish, verdict, L5Verdict.decision]
    rw [daemon.turnRecord_eq_nil rfl]
    rfl
  · simp only [RecallTurn.l5Finish, verdict, L5Verdict.decision]
    rw [daemon.turnRecord_eq_nil rfl]
    rfl

theorem mask_recall_iff {ts ts' : Nat} {emit emit' : RecallEmit} :
    (TelemetryRecord.recallTurn (daemon.telemEmitRecall ts emit)).mask =
        (TelemetryRecord.recallTurn (daemon.telemEmitRecall ts' emit')).mask ↔
      emit.entry = emit'.entry ∧ emit.className = emit'.className ∧
        emit.delivery = emit'.delivery ∧ emit.decision = emit'.decision ∧
        (emit.className = "private-secret" ∨ emit.query = emit'.query) := by
  simp only [TelemetryRecord.mask, telemEmitRecall, TelemetryRecord.recallTurn.injEq,
    RecallRecord.mk.injEq]
  constructor
  · rintro ⟨_, query, _, _, entry, sameClass, _, _, delivery, decision⟩
    refine ⟨entry, sameClass, delivery, decision, ?_⟩
    by_cases secret : emit.className = "private-secret"
    · exact Or.inl secret
    · refine Or.inr ?_
      have clear : ¬ emit'.className = "private-secret" := sameClass ▸ secret
      simpa [secret, clear] using query
  · rintro ⟨entry, sameClass, delivery, decision, query⟩
    refine ⟨trivial, ?_, by rw [sameClass], by rw [decision], entry, sameClass, trivial, trivial,
      delivery, decision⟩
    by_cases secret : emit'.className = "private-secret"
    · simp [sameClass, secret]
    · have asked := query.resolve_left (sameClass ▸ secret)
      simp [sameClass, secret, asked]

end TelemetryDaemon

/-- Whether two answers that may both be missing look alike once redacted. -/
def AnswersAlike (daemon : TelemetryDaemon) (redacted : Prop) (fact : Text) :
    Option Answer → Option Answer → Prop
  | some first, some second =>
      (redacted ∨ first.text = second.text) ∧
        daemon.obeyed first.text fact = daemon.obeyed second.text fact
  | none, none => True
  | _, _ => False

namespace TelemetryDaemon

variable (daemon : TelemetryDaemon)

/-- Two L5 outcomes on one fact are recorded alike. -/
structure PicksAlike (fact : Text) (first second : TelemetryRequest) (pool pool' : L5Pool) :
    Prop where
  decision : ((daemon.recallTurn first).l5Verdict daemon.flags pool).decision =
    ((daemon.recallTurn second).l5Verdict daemon.flags pool').decision
  sameClass : className ((daemon.recallTurn first).bpol daemon.flags pool) =
    className ((daemon.recallTurn second).bpol daemon.flags pool')
  delivery :
    ((daemon.recallTurn first).l5Verdict daemon.flags pool).delivery daemon.flags
        ((daemon.recallTurn first).bpol daemon.flags pool) =
      ((daemon.recallTurn second).l5Verdict daemon.flags pool').delivery daemon.flags
        ((daemon.recallTurn second).bpol daemon.flags pool')
  query : redacts ((daemon.recallTurn first).bpol daemon.flags pool) = true ∨
    pool.user = pool'.user
  answer : ((daemon.recallTurn first).l5Verdict daemon.flags pool).decision = "deliver" →
    AnswersAlike daemon (redacts ((daemon.recallTurn first).bpol daemon.flags pool) = true) fact
      first.ended second.ended

/-- The turn records of two deliveries of one fact, with one class and one query or none. -/
theorem mask_delivered_iff {first second : TelemetryRequest} {pool pool' : L5Pool}
    {answer answer' : Answer} {fact : Text}
    (name : ((daemon.recallTurn first).rerankPick daemon.flags pool).name =
      ((daemon.recallTurn second).rerankPick daemon.flags pool').name)
    (text : ((daemon.recallTurn first).rerankPick daemon.flags pool).text = fact)
    (text' : ((daemon.recallTurn second).rerankPick daemon.flags pool').text = fact)
    (sameClass : className ((daemon.recallTurn first).bpol daemon.flags pool) =
      className ((daemon.recallTurn second).bpol daemon.flags pool'))
    (query : redacts ((daemon.recallTurn first).bpol daemon.flags pool) = true ∨
      pool.user = pool'.user) :
    (daemon.deliveredRecord first pool answer).mask =
        (daemon.deliveredRecord second pool' answer').mask ↔
      AnswersAlike daemon (redacts ((daemon.recallTurn first).bpol daemon.flags pool) = true) fact
        (some answer) (some answer') := by
  have redacted : redacts ((daemon.recallTurn second).bpol daemon.flags pool') =
      redacts ((daemon.recallTurn first).bpol daemon.flags pool) := by
    rw [Bool.eq_iff_iff, ← className_private_iff, ← className_private_iff, sameClass]
  simp only [deliveredRecord, telemEmitTurn, TelemetryRecord.mask, TelemetryRecord.turn.injEq,
    TurnRecord.mk.injEq, redacted, name, text, text', sameClass, AnswersAlike, Option.map_some,
    Option.some.injEq, true_and]
  by_cases secret : redacts ((daemon.recallTurn first).bpol daemon.flags pool) = true
  · simp [secret]
  · have asked := query.resolve_left secret
    simp [secret, asked]

/-- The turn records of two L5 outcomes with one class and one query or none. -/
theorem mask_answers_iff {first second : TelemetryRequest} {pool pool' : L5Pool} {fact : Text}
    (name : ((daemon.recallTurn first).rerankPick daemon.flags pool).name =
      ((daemon.recallTurn second).rerankPick daemon.flags pool').name)
    (text : ((daemon.recallTurn first).rerankPick daemon.flags pool).text = fact)
    (text' : ((daemon.recallTurn second).rerankPick daemon.flags pool').text = fact)
    (sameClass : className ((daemon.recallTurn first).bpol daemon.flags pool) =
      className ((daemon.recallTurn second).bpol daemon.flags pool'))
    (query : redacts ((daemon.recallTurn first).bpol daemon.flags pool) = true ∨
      pool.user = pool'.user) (ended ended' : Option Answer) :
    (ended.toList.map (daemon.deliveredRecord first pool)).map TelemetryRecord.mask =
        (ended'.toList.map (daemon.deliveredRecord second pool')).map TelemetryRecord.mask ↔
      AnswersAlike daemon (redacts ((daemon.recallTurn first).bpol daemon.flags pool) = true) fact
        ended ended' := by
  cases ended with
  | none =>
      cases ended' with
      | none => simp [AnswersAlike]
      | some answer' => simp [AnswersAlike]
  | some answer =>
      cases ended' with
      | none => simp [AnswersAlike]
      | some answer' =>
          simp only [Option.toList_some, List.map_cons, List.map_nil, List.cons.injEq, and_true]
          exact daemon.mask_delivered_iff name text text' sameClass query

theorem picked_alike_iff {first second : TelemetryRequest} {pool pool' : L5Pool} {fact : Text}
    (name : ((daemon.recallTurn first).rerankPick daemon.flags pool).name =
      ((daemon.recallTurn second).rerankPick daemon.flags pool').name)
    (text : ((daemon.recallTurn first).rerankPick daemon.flags pool).text = fact)
    (text' : ((daemon.recallTurn second).rerankPick daemon.flags pool').text = fact) :
    (daemon.l5Records first pool).map TelemetryRecord.mask =
        (daemon.l5Records second pool').map TelemetryRecord.mask ↔
      daemon.PicksAlike fact first second pool pool' := by
  simp only [l5Records, List.map_cons, List.cons.injEq, mask_recall_iff]
  constructor
  · rintro ⟨⟨_, sameClass, delivery, decision, query⟩, turns⟩
    have asked := query.imp_left (className_private_iff _).mp
    have decided : ((daemon.recallTurn first).l5Verdict daemon.flags pool).decision =
      ((daemon.recallTurn second).l5Verdict daemon.flags pool').decision := decision
    refine ⟨decided, sameClass, delivery, asked, fun delivers => ?_⟩
    rw [if_pos delivers, if_pos (decided ▸ delivers)] at turns
    exact (daemon.mask_answers_iff name text text' sameClass asked _ _).mp turns
  · intro alike
    refine ⟨⟨name, alike.sameClass, alike.delivery, alike.decision,
      alike.query.imp_left (className_private_iff _).mpr⟩, ?_⟩
    by_cases delivers :
      ((daemon.recallTurn first).l5Verdict daemon.flags pool).decision = "deliver"
    · rw [if_pos delivers, if_pos (alike.decision ▸ delivers)]
      exact (daemon.mask_answers_iff name text text' alike.sameClass alike.query _ _).mpr
        (alike.answer delivers)
    · have undelivered := fun other => delivers (alike.decision.trans other)
      rw [if_neg delivers, if_neg undelivered]

end TelemetryDaemon

/-- Two turns of one process that answer from one private episode. -/
structure PrivatePair where
  daemon : TelemetryDaemon
  episode : Episode
  policy : MemPolicy
  first : TelemetryRequest
  second : TelemetryRequest
  stored : episode ∈ daemon.registry ++ daemon.nightshift
  policied : episode.policy = some policy
  secret : policy.className = "private-secret"
  first_answers : daemon.Answers first episode
  second_answers : daemon.Answers second episode

namespace PrivatePair

variable (pair : PrivatePair)

/-- Nothing but hashes, lengths, times and scores tells the two turns apart. -/
def Indistinct : Prop :=
  (pair.daemon.records pair.first).map TelemetryRecord.mask =
    (pair.daemon.records pair.second).map TelemetryRecord.mask

/-- Both turns are another lane's, or both are L5's with outcomes recorded alike. -/
def Alike : Prop :=
  (pair.first.earlierRecalled ≠ none ∧ pair.second.earlierRecalled ≠ none) ∨
    (pair.first.earlierRecalled = none ∧ pair.second.earlierRecalled = none ∧
      ∃ pool pool',
        (pair.daemon.recallTurn pair.first).l5Open = some (pair.daemon.flags, pool) ∧
        (pair.daemon.recallTurn pair.second).l5Open = some (pair.daemon.flags, pool') ∧
        pair.daemon.PicksAlike pair.episode.text pair.first pair.second pool pool')

end PrivatePair

/-! ## Two owners' questions -/

/-- A private memory, keyed so that every query with a read key finds it. -/
def vaultMemory : Episode :=
  { tiedEpisode "vault" "The vault opens with 4711.".toList with
    policy := some
      { className := "private-secret"
        delivery := "attr-gate-strict"
        declineWhen := []
        declineMessage := [] } }

def vaultDaemon (memPolicy : Bool) : TelemetryDaemon where
  tables := .ascii
  arith := .exact
  geo := .singleRow
  tokenizer := threeIds
  registry := [vaultMemory]
  nightshift := []
  flags := { tiedFlags with memPolicy }
  hash _ := 0

def vaultRequest (user answer : String) : TelemetryRequest where
  rawUser := some user.toList
  origMsgs := none
  globalQ := some [.finite 1]
  canonRun := soundRun
  rerankRun := soundRun
  deliverPrefill := .ok
  earlier := warmPrompt
  earlierLast := 3
  earlierRecalled := none
  earlierDecline := none
  recallTs := 0
  answer := some { text := answer.toList, nOut := 1, decodeS := .finite 1, ts := 0 }

def vaultPool (user : String) : L5Pool where
  user := user.toList
  scored := [scoreEpisode .exact [.finite 1] vaultMemory]

theorem vaultRequest_answers {memPolicy : Bool} {user answer mode : String}
    (delivers : let turn := (vaultDaemon memPolicy).recallTurn (vaultRequest user answer)
      let flags := (vaultDaemon memPolicy).flags
      let pool := vaultPool user
      turn.l5Open = some (flags, pool) ∧ (turn.rerankPick flags pool).name = vaultMemory.name ∧
        (turn.rerankPick flags pool).text = vaultMemory.text ∧
        turn.l5Verdict flags pool = .deliver mode ∧ turn.l5Ids flags pool mode ≠ none) :
    (vaultDaemon memPolicy).Answers (vaultRequest user answer) vaultMemory := by
  obtain ⟨opened, name, text, verdict, served⟩ := delivers
  exact .picked (vaultPool user) rfl opened name text (Or.inl ⟨mode, verdict, served, rfl⟩)

/-- Two questions about the vault; only the first answer uses the fact's words. -/
def vaultPair (memPolicy : Bool) : PrivatePair where
  daemon := vaultDaemon memPolicy
  episode := vaultMemory
  policy :=
    { className := "private-secret"
      delivery := "attr-gate-strict"
      declineWhen := []
      declineMessage := [] }
  first := vaultRequest "vault opens" "The vault opens with 4711."
  second := vaultRequest "the vault" "No."
  stored := List.mem_cons_self
  policied := rfl
  secret := rfl
  first_answers := by
    cases memPolicy with
    | false => exact @vaultRequest_answers false _ _ "plain" (by decide +kernel)
    | true => exact @vaultRequest_answers true _ _ "recite" (by decide +kernel)
  second_answers := by
    cases memPolicy with
    | false => exact @vaultRequest_answers false _ _ "plain" (by decide +kernel)
    | true => exact @vaultRequest_answers true _ _ "recite" (by decide +kernel)

end KairosEngine.Daemon
