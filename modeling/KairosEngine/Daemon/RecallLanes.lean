import KairosEngine.Daemon.RecallL5
import KairosEngine.Daemon.Residency

/-!
# The text-in-context recall lanes of `routes.rs`

The Jaccard lane and the L5 lane on the resident cache, from the warm prompt to the
synthesis step: the side passes that may move the L5 pick, the decline, the margin
skip and the delivery.  What the tokenizer and the engine answer is part of the turn.
-/

namespace KairosEngine.Daemon

open KairosEngine.Library Residency

structure Message where
  role : String
  content : Text
  deriving DecidableEq

/-- The tokenizer as the lanes use it; a template may be refused. -/
structure TurnTokenizer where
  applyTemplateIds : List Message → Option (List Int)
  turnStopIds : List Int
  suppressTokenIds : List Int
  decodeToken : Int → Text

/-! ## Side passes -/

/-- How the engine answers one side pass: its prefill, and each decode step with the
logits it writes. -/
structure SideRun where
  prefill : Verdict
  step : Nat → Verdict
  logits : Nat → List Ieee

/-- The cache a side pass leaves, whether every call succeeded, and the reply. -/
structure SideOutcome where
  entries : List Entry
  ok : Bool
  reply : Text
  deriving DecidableEq

/-- The first largest logit outside the suppressed ids; 0 where none beats -∞. -/
def maskedArgmax (suppress : List Int) (logits : List Ieee) : Int :=
  (logits.zipIdx.foldl
    (fun (best : Ieee × Nat) (entry : Ieee × Nat) =>
      if suppress.contains (entry.2 : Int) then best
      else if best.1.lt entry.1 then entry else best)
    (.negInf, 0)).2

section SidePass

variable (tokenizer : TurnTokenizer) (run : SideRun) (stop : Text → Bool)

/-- The greedy decode of a side pass, for at most `budget` further steps. -/
def sideDecode (budget index : Nat) (tok : Int) (entries : List Entry) (reply : Text) :
    SideOutcome :=
  match budget with
  | 0 => { entries, ok := true, reply }
  | budget + 1 =>
      match run.step index with
      | .ok =>
          let fed := entries ++ minted [tok]
          let next := maskedArgmax tokenizer.suppressTokenIds (run.logits index)
          if next = 1 ∨ tokenizer.turnStopIds.contains next then
            { entries := fed, ok := true, reply }
          else
            let said := reply ++ tokenizer.decodeToken next
            if stop said then { entries := fed, ok := true, reply := said }
            else sideDecode budget (index + 1) next fed said
      | failure => { entries := failure.remains entries, ok := false, reply }

/-- A side pass over its own prompt.  It resets the cache first, so what it leaves does
not depend on what it found. -/
def sidePass (budget : Nat) (ids : List Int) : SideOutcome :=
  match run.prefill with
  | .ok => sideDecode tokenizer run stop budget 0 (ids.getLastD 0) (minted ids.dropLast) []
  | failure => { entries := failure.remains [], ok := false, reply := [] }

end SidePass

/-! ## The prompts -/

def recallSystem : Text :=
  "You are Shannon-Prime, a local AI with a real working memory. Keep replies short. Use facts you were given faithfully; if you don't know, say so.".toList

def plainMessages (fact user : Text) : List Message :=
  [{ role := "system", content := recallSystem },
    { role := "user",
      content := "Context (authoritative, current): ".toList ++ fact ++ "\n\n".toList ++ user }]

/-- Give the last user message this content. -/
def setLastUser (content : Text) (messages : List Message) : List Message :=
  (go messages.reverse).reverse
where
  go : List Message → List Message
    | [] => []
    | message :: rest =>
        if message.role = "user" then { message with content } :: rest else message :: go rest

/-- The system echo keeps the conversation, apart from its own system messages. -/
def systemEchoMessages (origMsgs : Option (List Message)) (fact user : Text) : List Message :=
  let system : Message :=
    { role := "system"
      content := "You are Shannon-Prime, a local AI with a real working memory. Fact on record (authoritative for this conversation, overrides prior knowledge): ".toList ++ fact ++ "\nEvery answer must repeat the relevant part of the fact on record verbatim. Keep replies short.".toList }
  let ask := user ++ "\n\nAnswer using the fact on record:".toList
  match origMsgs.filter (·.any (·.role = "user")) with
  | some messages => setLastUser ask (system :: messages.filter (·.role ≠ "system"))
  | none => [system, { role := "user", content := ask }]

/-- The augmented prompt of an L5 delivery. -/
def deliveryMessages (strict : Bool) (mode : String) (origMsgs : Option (List Message))
    (fact user : Text) : List Message :=
  if strict then
    [{ role := "system"
       content := "You are Shannon-Prime, a local AI with a real working memory. Answer ONLY using the fact on record below. If the fact does not state what the question asks, reply EXACTLY: \"I do not have that information.\" Do not guess, infer, or invent any detail that is not written in the fact.".toList },
      { role := "user"
        content := "Fact on record: ".toList ++ fact ++ "\n\nQuestion: ".toList ++ user }]
  else if mode = "sandwich" then
    [{ role := "system", content := recallSystem },
      { role := "user"
        content := "Context (authoritative, from your memory): ".toList ++ fact ++ "\n\n".toList ++ user ++ "\n\n(Answer using ONLY the context above; it overrides your prior knowledge.)".toList }]
  else if mode = "factecho" then
    [{ role := "system"
       content := "You are Shannon-Prime, a local AI with a real working memory. Your memory record is the ground truth for this conversation, even where it differs from general knowledge. Keep replies short.".toList },
      { role := "user"
        content := "Fact on record: ".toList ++ fact ++ "\n\nQuestion: ".toList ++ user ++ "\n\nAnswer using the fact on record:".toList }]
  else if mode = "system" then
    [{ role := "system"
       content := "You are Shannon-Prime, a local AI with a real working memory. Fact on record (authoritative for this conversation, overrides prior knowledge): ".toList ++ fact ++ "\nAnswer from this fact; keep replies short.".toList },
      { role := "user", content := user }]
  else if mode = "systemecho" then
    systemEchoMessages origMsgs fact user
  else if mode = "scaled" then
    [{ role := "system", content := recallSystem },
      { role := "user"
        content := "Context (authoritative, from your memory): ".toList ++ fact ++ "\n\nUsing the context above, answer faithfully even if it differs from what you already know:\n".toList ++ user }]
  else
    plainMessages fact user

def canonMessages (user : Text) : List Message :=
  [{ role := "user"
     content := "A question describes something without naming it. Name the described thing, place, or person — do NOT answer the question.\nExample: \"What is the tallest building in the city that never sleeps?\" describes New York.\nQuestion: \"".toList ++ user ++ "\" describes:".toList }]

def rerankMessages (facts : List Text) (user : Text) : List Message :=
  let entries := (["A", "B", "C"].zip facts).flatMap fun (letter, fact) =>
    letter.toList ++ ") ".toList ++ fact ++ "\n".toList
  [{ role := "user"
     content := "You are a memory index. Exactly one fact below directly answers the question.\n\n".toList ++ entries ++ "\nQUESTION: ".toList ++ user ++ "\n\nReply with only the single letter (A, B or C) of the fact that answers the question:".toList }]

/-! ## The rerank permutation -/

def utf8Bytes (text : Text) : List UInt8 := (String.ofList text).toUTF8.toList

def fnv1a (bytes : List UInt8) : UInt64 :=
  bytes.foldl (fun seed byte => (seed ^^^ byte.toUInt64) * 0x100000001b3) 0xcbf29ce484222325

def xorshift (seed : UInt64) : UInt64 :=
  let seed := seed ^^^ (seed <<< 13)
  let seed := seed ^^^ (seed >>> 7)
  seed ^^^ (seed <<< 17)

def swapAt (perm : List Nat) (i j : Nat) : List Nat :=
  (perm.set i (perm.getD j 0)).set j (perm.getD i 0)

/-- Fisher–Yates from index `i` down to 1. -/
def shuffleFrom : Nat → UInt64 → List Nat → List Nat
  | 0, _, perm => perm
  | i + 1, seed, perm =>
      let seed := xorshift seed
      shuffleFrom i seed (swapAt perm (i + 1) (seed.toNat % (i + 2)))

def rerankPerm (user : Text) (k : Nat) : List Nat :=
  let seed := fnv1a (utf8Bytes user)
  shuffleFrom (k - 1) (if seed = 0 then 0x9e3779b97f4a7c15 else seed) (List.range k)

/-! ## The lanes -/

/-- One record of `telem_emit_recall`, with the arguments of the call. -/
structure RecallEmit where
  query : Text
  entry : String
  className : String
  cos : Ieee
  margin : Ieee
  delivery : String
  decision : String
  deriving DecidableEq

/-- The locals of a turn that the recall stage writes and the synthesis reads. -/
structure Synthesis where
  res : Residency
  synLast : Int
  recalled : Option (String × Nat)
  symbolicDecline : Option Text
  recalledText : Option Text
  recalledQuery : Option Text
  recalledClass : Option String
  recalledSecret : Bool
  /-- The augmented prompt the cache was rebuilt from. -/
  delivered : Option (List Int)
  emits : List RecallEmit
  deriving DecidableEq

/-- Nothing recalled yet: the warm prompt and its last token. -/
def Synthesis.start (res : Residency) (last : Int) : Synthesis where
  res := res
  synLast := last
  recalled := none
  symbolicDecline := none
  recalledText := none
  recalledQuery := none
  recalledClass := none
  recalledSecret := false
  delivered := none
  emits := []

/-- What the lanes are given of a turn; `none` for a lane whose flag is unset. -/
structure RecallTurn where
  tables : Unicode
  arith : Arithmetic
  geo : RecallGeometry
  tokenizer : TurnTokenizer
  registry : List Episode
  nightshift : List Episode
  rawUser : Option Text
  origMsgs : Option (List Message)
  /-- `SP_RECALL_JACCARD` with `SP_RECALL_JACCARD_TAU`, else 0.15. -/
  jaccard : Option Ieee
  /-- `SP_RECALL_L5` with its flags. -/
  l5 : Option L5Flags
  jaccardPrefill : Verdict
  globalQ : Option (List Ieee)
  canonRun : SideRun
  rerankRun : SideRun
  deliverPrefill : Verdict

/-- The candidates a lane scored, best first, for this user text. -/
structure L5Pool where
  user : Text
  scored : List Scored
  deriving DecidableEq

/-- A pick with the augmented prompt that would deliver it. -/
structure Offer where
  pick : Pick
  ids : List Int
  deriving DecidableEq

namespace RecallTurn

variable (turn : RecallTurn)

def user : Option Text := laneUser turn.tables turn.rawUser

/-- A template of at least two ids; anything else is only logged. -/
def template (messages : List Message) : Option (List Int) :=
  (turn.tokenizer.applyTemplateIds messages).filter fun ids => decide (2 ≤ ids.length)

/-! ### Jaccard -/

/-- The strictly best overlap over the registry and the live episodes. -/
def jaccardPick (user : Text) : Pick :=
  (turn.registry ++ turn.nightshift).foldl
    (fun best ep =>
      let ov := tokenOverlap turn.arith.single (turn.tables.toLowercase user) ep.text
      if best.cos.lt ov then { cos := ov, name := ep.name, text := ep.text } else best)
    { cos := .finite 0, name := "", text := [] }

def jaccardOffer : Option Offer := do
  let tau ← turn.jaccard
  let user ← turn.user
  let pick := turn.jaccardPick user
  if tau.le pick.cos && decide (pick.text ≠ []) then
    let ids ← turn.template (plainMessages pick.text user)
    return { pick, ids }
  else
    none

def recalledOf (pick : Pick) : String × Nat := (pick.name, scoreMilli turn.arith.single pick.cos)

def jaccardStage (syn : Synthesis) : Synthesis :=
  match turn.jaccardOffer with
  | none => syn
  | some offer =>
      match syn.res.reset.prefill turn.jaccardPrefill offer.ids.dropLast with
      | .ok next =>
          { syn with
            res := next
            synLast := offer.ids.getLastD 0
            recalled := some (turn.recalledOf offer.pick)
            delivered := some offer.ids }
      | .error left => { syn with res := left }

/-! ### L5 selection -/

def l5Pool (flags : L5Flags) : Option L5Pool := do
  let user ← turn.user
  let query := laneQuery turn.tables turn.arith turn.geo flags user turn.globalQ
  if query = [] then none
  else
    let scored := l5Scored turn.arith turn.geo flags.audit query turn.registry turn.nightshift
    return { user, scored }

variable (flags : L5Flags) (pool : L5Pool)

def margin : Ieee := l5Margin turn.arith.single pool.scored

/-- The guard of both side passes: an ambiguous margin under a pick that passes. -/
def ambiguous (eps : Ieee) (pick : Pick) : Bool :=
  Ieee.lt (.finite 0) eps && (turn.margin pool).lt eps && flags.tauL5.le pick.cos &&
    decide (2 ≤ pool.scored.length)

def canonStops (reply : Text) : Bool :=
  (reply.dropWhile turn.tables.isWhitespace).contains '\n'

/-- `SP_RECALL_L5_CANON`: the side pass that names what the question describes. -/
def canonPass : Option SideOutcome :=
  if turn.ambiguous flags pool flags.canonEps (topPick pool.scored) then
    (turn.template (canonMessages pool.user)).map
      (sidePass turn.tokenizer turn.canonRun turn.canonStops 32)
  else
    none

/-- The first line of the trimmed reply. -/
def canonName (reply : Text) : Text :=
  turn.tables.trim ((turn.tables.trim reply).takeWhile (· ≠ '\n'))

/-- The first of the best five with the strictly largest overlap. -/
def canonBest (canon : Text) : Nat × Nat :=
  let overlaps := (pool.scored.take 5).map fun entry => turn.tables.canonOverlap canon entry.text
  overlaps.zipIdx.foldl
    (fun best entry => if best.2 < entry.1 then (entry.2, entry.1) else best)
    (0, overlaps.headD 0)

def canonPick : Pick :=
  let top := topPick pool.scored
  match turn.canonPass flags pool with
  | some outcome =>
      let canon := turn.canonName outcome.reply
      if outcome.ok && decide (canon ≠ []) then
        ((pool.scored[(turn.canonBest pool canon).1]?).map Scored.pick).getD top
      else
        top
  | none => top

def rerankWidth : Nat := min pool.scored.length 3

def rerankFacts : List Text :=
  (rerankPerm pool.user (rerankWidth pool)).map fun index =>
    ((pool.scored[index]?).map Scored.text).getD []

/-- `SP_RECALL_L5_RERANK`: the side pass that asks for a letter. -/
def rerankPass : Option SideOutcome :=
  if turn.ambiguous flags pool flags.rerankEps (turn.canonPick flags pool) then
    (turn.template (rerankMessages (rerankFacts pool) pool.user)).map
      (sidePass turn.tokenizer turn.rerankRun (fun reply => decide (turn.tables.trim reply ≠ [])) 6)
  else
    none

/-- The index of the candidate a reply names. -/
def rerankIndex (reply : Text) : Option Nat :=
  (((turn.tables.trim reply).flatMap turn.tables.upper).find? ['A', 'B', 'C'].contains).bind
    fun letter => (rerankPerm pool.user (rerankWidth pool))[['A', 'B', 'C'].idxOf letter]?

/-- The pick the dispatch sees. -/
def rerankPick : Pick :=
  let pick := turn.canonPick flags pool
  match turn.rerankPass flags pool with
  | some outcome =>
      match (if outcome.ok then turn.rerankIndex pool outcome.reply else none) with
      | some index =>
          if index = 0 then pick else ((pool.scored[index]?).map Scored.pick).getD pick
      | none => pick
  | none => pick

/-! ### L5 dispatch and delivery -/

def l5Verdict : L5Verdict :=
  l5Dispatch turn.tables turn.arith.single flags pool.user pool.scored (turn.margin pool)
    (turn.rerankPick flags pool)

def bpol : Option MemPolicy :=
  l5Policy flags.memPolicy pool.scored (turn.rerankPick flags pool).name

def l5Ids (mode : String) : Option (List Int) :=
  turn.template (deliveryMessages flags.strict mode turn.origMsgs
    (turn.rerankPick flags pool).text pool.user)

def recallEmit (delivery decision : String) : RecallEmit where
  query := pool.user
  entry := (turn.rerankPick flags pool).name
  className := ((turn.bpol flags pool).map MemPolicy.className).getD "-"
  cos := (turn.rerankPick flags pool).cos
  margin := turn.margin pool
  delivery := delivery
  decision := decision

/-- The cache behind both side passes. -/
def afterSidePasses (res : Residency) : Residency :=
  match turn.rerankPass flags pool, turn.canonPass flags pool with
  | some outcome, _ => res.withEntries outcome.entries
  | none, some outcome => res.withEntries outcome.entries
  | none, none => res

def l5Deliver (mode : String) (syn : Synthesis) : Synthesis :=
  match turn.l5Ids flags pool mode with
  | none => syn
  | some ids =>
      match syn.res.reset.prefill turn.deliverPrefill ids.dropLast with
      | .ok next =>
          { syn with
            res := next
            synLast := ids.getLastD 0
            recalled := some (turn.recalledOf (turn.rerankPick flags pool))
            recalledText := some (turn.rerankPick flags pool).text
            recalledQuery := some pool.user
            recalledClass := (turn.bpol flags pool).map MemPolicy.className
            recalledSecret :=
              (turn.bpol flags pool).any fun policy =>
                decide (policy.className = "private-secret")
            delivered := some ids
            emits := syn.emits ++ [turn.recallEmit flags pool mode "deliver"] }
      | .error left => { syn with res := left }

def l5Finish (syn : Synthesis) : Synthesis :=
  match turn.l5Verdict flags pool with
  | .belowTau => syn
  | .decline message =>
      { syn with
        symbolicDecline := some message
        recalled := some (turn.recalledOf (turn.rerankPick flags pool))
        emits := syn.emits ++ [turn.recallEmit flags pool "attr-gate-strict" "decline"] }
  | .marginSkip =>
      { syn with
        emits := syn.emits ++
          [turn.recallEmit flags pool (deliveryMode flags (turn.bpol flags pool)) "margin-skip"] }
  | .deliver mode => turn.l5Deliver flags pool mode syn

/-- The lane's flags and candidates where it gets as far as scoring. -/
def l5Open : Option (L5Flags × L5Pool) := do
  let flags ← turn.l5
  let pool ← turn.l5Pool flags
  return (flags, pool)

def l5Stage (syn : Synthesis) : Synthesis :=
  if syn.recalled.isSome then
    syn
  else
    match turn.l5Open with
    | none => syn
    | some (flags, pool) =>
        turn.l5Finish flags pool { syn with res := turn.afterSidePasses flags pool syn.res }

/-- Both lanes on the warm prompt. -/
def recallStage (res : Residency) (last : Int) : Synthesis :=
  turn.l5Stage (turn.jaccardStage (Synthesis.start res last))

end RecallTurn

end KairosEngine.Daemon
