import KairosEngine.Daemon.GlobalK
import KairosEngine.Daemon.Lexical

/-!
# The registry file of `recall.rs`

The JSONL file the daemon loads at boot, appends captured episodes to and rewrites when
a memory is forgotten or superseded.  A file is its lines as `serde_json` reads them.
-/

namespace KairosEngine.Daemon

open KairosEngine.Library

/-! ## Rows -/

/-- A member of a JSON object, as far as the loader looks into it. -/
inductive JsonField where
  | string (text : Text)
  | number (value : Int)
  | other
  deriving DecidableEq

def JsonField.asStr : JsonField → Option Text
  | .string text => some text
  | .number _ => none
  | .other => none

def JsonField.asI64 : JsonField → Option Int
  | .number value => if -2 ^ 63 ≤ value ∧ value < 2 ^ 63 then some value else none
  | .string _ => none
  | .other => none

def JsonField.asU64 : JsonField → Option Nat
  | .number value => if 0 ≤ value ∧ value < 2 ^ 64 then some value.toNat else none
  | .string _ => none
  | .other => none

/-- The members of a JSON object. -/
abbrev RowFields := List (String × JsonField)

namespace RowFields

variable (fields : RowFields)

def get (key : String) : Option JsonField := fields.lookup key

def str (key : String) : Option Text := (fields.get key).bind JsonField.asStr

/-- `insert` on an object: the key has this value only. -/
def insert (key : String) (value : JsonField) : RowFields :=
  (key, value) :: fields.filter fun member => decide (member.1 ≠ key)

theorem get_insert_self (key : String) (value : JsonField) :
    (fields.insert key value).get key = some value := by
  simp [insert, get]

theorem get_insert_of_ne {key other : String} (different : other ≠ key) (value : JsonField) :
    (fields.insert key value).get other = fields.get other := by
  have unequal : (other == key) = false := beq_false_of_ne different
  rw [get, insert, List.lookup_cons, unequal]
  simp only [get]
  induction fields with
  | nil => rfl
  | cons head tail inductionHypothesis =>
      obtain ⟨name, field⟩ := head
      by_cases same : name = key
      · subst same
        rw [List.filter_cons_of_neg (by simp), inductionHypothesis, List.lookup_cons, unequal]
      · rw [List.filter_cons_of_pos (by simpa using same), List.lookup_cons, List.lookup_cons,
          inductionHypothesis]

theorem str_insert_of_ne {key other : String} (different : other ≠ key) (value : JsonField) :
    (fields.insert key value).str other = fields.str other := by
  rw [str, get_insert_of_ne fields different, str]

end RowFields

/-- A line of the file.  `foreign` marks a margin that `trim` removes and the JSON
grammar refuses, so that the untrimmed line does not parse. -/
inductive RegistryLine where
  | blank
  | malformed
  | scalar
  | row (foreign : Bool) (fields : RowFields)
  deriving DecidableEq

/-! ## Episode directories -/

/-- What the loader finds on disk besides the file. -/
structure EpisodeDisk where
  isDir : Text → Bool
  windows : Bool
  /-- `SP_EPS_DIR`, `SP_EPS_COLD_DIR` and the keys in the move ledger. -/
  epsRoot : Option Text
  coldRoot : Option Text
  moved : List Text
  /-- `ep.k`, `ep.l5`, `ep.l5.geom` and `ep.okf.md` in a directory. -/
  epK : Text → Option Bytes
  epL5 : Text → Option Bytes
  l5Tag : Text → Option Text
  okf : Text → Option Text
  /-- The `sig_bits` and `text` of the rows of a sibling `corpus_manifest.jsonl`. -/
  manifest : List (Text × Text)

inductive EpisodeDir where
  | asWritten
  | moved (path : Text)
  | cold (path : Text)
  | missing
  deriving DecidableEq

def isSlash (c : Char) : Bool := decide (c = '/') || decide (c = '\\')

def trimEndMatches (pattern : Char → Bool) (text : Text) : Text :=
  (text.reverse.dropWhile pattern).reverse

def trimMatches (pattern : Char → Bool) (text : Text) : Text :=
  trimEndMatches pattern (text.dropWhile pattern)

/-- `ep_basename`. -/
def epBasename (dir : Text) : Option Text :=
  let base := ((trimEndMatches isSlash dir).reverse.takeWhile fun c => !isSlash c).reverse
  if base = [] then none else some base

section Loading

variable (tables : Unicode) (geo : RecallGeometry) (disk : EpisodeDisk)

/-- `ep_key`. -/
def epKey (base : Text) : Text := if disk.windows then tables.toLowercase base else base

/-- `resolve_episode_dir`. -/
def resolveEpisodeDir (dir : Text) : EpisodeDir :=
  if dir = [] ∨ disk.isDir dir = true then
    .asWritten
  else
    match epBasename dir with
    | none => .missing
    | some base =>
        let norm := fun root : Option Text =>
          (root.map fun path => trimEndMatches isSlash (tables.trim path)).getD []
        let hot := norm disk.epsRoot
        let cold := norm disk.coldRoot
        if hot ≠ [] ∧ disk.isDir (hot ++ '/' :: base) = true then
          .moved (hot ++ '/' :: base)
        else if cold ≠ [] ∧ disk.moved.contains (epKey tables disk base) = true ∧
            disk.isDir (cold ++ '/' :: base) = true then
          .cold (cold ++ '/' :: base)
        else
          .missing

/-- The directory the episode is loaded from, unless it is missing. -/
def episodeDir (dir : Text) : Option Text :=
  match resolveEpisodeDir tables disk dir with
  | .asWritten => some dir
  | .moved path => some path
  | .cold path => some path
  | .missing => none

/-- `geom_tag`. -/
def geomTag : Text :=
  "g".toList ++ (toString geo.nGlobal).toList ++ "x".toList ++ (toString geo.hd).toList ++
    "h".toList ++ (toString geo.gNh).toList ++ "L".toList ++ (toString geo.l5Layer).toList

/-- `load_episode_l5key`. -/
def loadEpisodeL5key (dir : Text) : Option (List Ieee) :=
  let tag := ((disk.l5Tag dir).map tables.trim).getD "g8x512h16L5".toList
  if tag ≠ geomTag geo then
    none
  else
    (disk.epL5 dir).bind fun bytes =>
      if bytes.length ≠ geo.hd * 4 then none
      else some ((List.range geo.hd).map (fileFloat bytes))

/-! ## Policies -/

/-- `class_default_delivery`. -/
def classDefaultDelivery (className : String) : String :=
  if className = "private-secret" then "attr-gate-strict"
  else if className = "counterfact" ∨ className = "same-template" then "systemecho"
  else if className = "fact" ∨ className = "preference" ∨ className = "persona" ∨
      className = "episodic-event" then "system"
  else "recite"

/-- `MemPolicy::from_class` under the live class map. -/
def MemPolicy.fromClass (classMap : String → Option String) (className : String) : MemPolicy where
  className := className
  delivery := (classMap className).getD (classDefaultDelivery className)
  declineWhen := if className = "private-secret" then ["zero-inference", "attribute-absent"] else []
  declineMessage :=
    if className = "private-secret" then
      "I have a record for that entity, but it does not include that specific detail.".toList
    else []

/-- `str::lines`. -/
def textLines (text : Text) : List Text :=
  match text with
  | [] => []
  | _ =>
    let pieces := text.splitOn '\n'
    let ended := pieces.dropLast.map fun line =>
      if line.getLast? = some '\r' then line.dropLast else line
    match pieces.getLast? with
    | some [] => ended
    | some line => ended ++ [line]
    | none => ended

/-- Comma-separated entries, trimmed, without the empty ones. -/
def commaList (text : Text) : List String :=
  ((((words (fun c => decide (c = ',')) text).map tables.trim).filter
    fun entry => decide (entry ≠ [])).map String.ofList)

/-- The lines between the first two `---`. -/
def frontmatter (text : Text) : List Text :=
  let fence := fun line => decide (tables.trim line = "---".toList)
  (((textLines text).dropWhile fun line => !fence line).drop 1).takeWhile fun line => !fence line

/-- `split_once(':')` with both sides trimmed. -/
def keyValue (line : Text) : Option (Text × Text) :=
  if line.contains ':' then
    some (tables.trim (line.takeWhile (· ≠ ':')), tables.trim ((line.dropWhile (· ≠ ':')).drop 1))
  else
    none

/-- The last value the frontmatter gives a key. -/
def frontValue (text : Text) (key : String) : Option Text :=
  (((frontmatter tables text).filterMap (keyValue tables)).filterMap
    fun entry => if entry.1 = key.toList then some entry.2 else none).getLast?

/-- `parse_okf_policy`. -/
def parseOkfPolicy (text : Text) : Option MemPolicy :=
  (frontValue tables text "mem_class").map fun value =>
    let className := String.ofList value
    { className
      delivery :=
        ((frontValue tables text "mem_delivery").map String.ofList).getD
          (classDefaultDelivery className)
      declineWhen :=
        ((frontValue tables text "mem_decline_when").map fun value =>
          commaList tables
            (trimMatches (fun c => decide (c = '[') || decide (c = ']')) value)).getD []
      declineMessage := (frontValue tables text "mem_decline_message").getD [] }

/-- The policy written in a row. -/
def rowPolicy (fields : RowFields) : Option MemPolicy :=
  (fields.str "mem_class").map fun value =>
    let className := String.ofList value
    { className
      delivery :=
        ((fields.str "mem_delivery").map String.ofList).getD (classDefaultDelivery className)
      declineWhen := ((fields.str "mem_decline_when").map (commaList tables)).getD []
      declineMessage :=
        (fields.str "mem_decline_message").getD
          "I have a record for that entity, but it does not include that specific detail.".toList }

/-! ## Signatures -/

/-- `char::to_digit(16)`. -/
def hexDigit (c : Char) : Option Nat :=
  if '0' ≤ c ∧ c ≤ '9' then some (c.toNat - 48)
  else if 'a' ≤ c ∧ c ≤ 'f' then some (c.toNat - 87)
  else if 'A' ≤ c ∧ c ≤ 'F' then some (c.toNat - 55)
  else none

def nibbleBits (nibble : Nat) : List Bool := (List.range 4).map nibble.testBit

/-- `parse_sig_hex`: bit `i` of the result is bit `i % 4` of the nibble `i / 4` from the
end. -/
def parseSigHex (hex : Text) : Option (List Bool) :=
  if hex.length ≠ rBits / 4 then none
  else (hex.reverse.mapM hexDigit).map fun nibbles => nibbles.flatMap nibbleBits

/-- The nibbles of a signature, most significant first, as `{:016x}` writes its words. -/
def sigHex (sig : List Bool) : Text :=
  ((List.range (rBits / 4)).map fun nibble =>
    let value := (List.range 4).foldl
      (fun value bit => value + if sig.getD (4 * nibble + bit) false then 2 ^ bit else 0) 0
    Nat.digitChar value).reverse

theorem hexDigit_digitChar {value : Nat} (nibble : value < 16) :
    (hexDigit (Nat.digitChar value)).isSome = true := by
  have digits : ∀ value < 16, (hexDigit (Nat.digitChar value)).isSome = true := by decide
  exact digits value nibble

/-- A written signature is read again. -/
theorem parseSigHex_sigHex (sig : List Bool) : (parseSigHex (sigHex sig)).isSome = true := by
  have length : (sigHex sig).length = rBits / 4 := by
    rw [sigHex, List.length_reverse, List.length_map, List.length_range]
  rw [parseSigHex, if_neg (not_not.mpr length), Option.isSome_map, sigHex, List.reverse_reverse]
  generalize List.range (rBits / 4) = nibbles
  induction nibbles with
  | nil => rfl
  | cons nibble rest inductionHypothesis =>
      obtain ⟨others, read⟩ := Option.isSome_iff_exists.mp inductionHypothesis
      have below : (List.range 4).foldl (fun value bit =>
          value + if sig.getD (4 * nibble + bit) false then 2 ^ bit else 0) 0 < 16 := by
        simp only [List.range, List.range.loop, List.foldl_cons, List.foldl_nil]
        split <;> split <;> split <;> split <;> decide
      obtain ⟨digit, first⟩ := Option.isSome_iff_exists.mp (hexDigit_digitChar below)
      rw [List.map_cons, List.mapM_cons, first, read]
      rfl

/-! ## `load_registry_report` -/

/-- The last manifest row with this signature. -/
def manifestText (sig : List Bool) : Option Text :=
  (disk.manifest.filterMap fun entry =>
    if parseSigHex entry.1 = some sig then some entry.2 else none).getLast?

/-- The text of a loaded row: its own, or the manifest's where it has none. -/
def backfilled (own : Text) (sig : List Bool) : Text :=
  if own = [] then (manifestText disk sig).getD [] else own

/-- One row; `none` where the loader skips it. -/
def loadRow (fields : RowFields) : Option Episode := do
  let dir ← ((fields.get "dir").orElse fun _ => fields.get "ring2_path").bind JsonField.asStr
  let sig ← (fields.str "sig_bits").bind parseSigHex
  let npos := (((fields.get "npos").bind JsonField.asI64).getD 0).bmod (2 ^ 32)
  let dir ← episodeDir tables disk dir
  let (gk, gkNg) := ((disk.epK dir).bind fun bytes => loadEpisodeGlobalK geo bytes npos).getD ([], 0)
  return {
    name := String.ofList ((fields.str "name").getD "?".toList)
    dir := String.ofList dir
    npos := npos
    topic := (fields.str "topic").getD []
    text := backfilled disk ((fields.str "text").getD []) sig
    sig := sig
    gk := gk
    gkNg := gkNg
    tokens := none
    l5key := (loadEpisodeL5key tables geo disk dir).getD []
    policy := ((disk.okf dir).bind (parseOkfPolicy tables)).or (rowPolicy tables fields)
    lifecycle := (((fields.get "lifecycle").bind JsonField.asU64).getD 0) % 256 }

def loadLine : RegistryLine → Option Episode
  | .row _ fields => loadRow tables geo disk fields
  | .blank => none
  | .malformed => none
  | .scalar => none

def loadRegistry (lines : List RegistryLine) : List Episode :=
  lines.filterMap (loadLine tables geo disk)

variable {tables geo disk}

theorem mem_loadRegistry {lines : List RegistryLine} {ep : Episode} :
    ep ∈ loadRegistry tables geo disk lines ↔
      ∃ line ∈ lines, loadLine tables geo disk line = some ep := List.mem_filterMap

/-- A row that loads has its own text, or none and the manifest's. -/
theorem loadRow_text {fields : RowFields} {ep : Episode}
    (loaded : loadRow tables geo disk fields = some ep) :
    (fields.str "text").getD [] = ep.text ∨ (fields.str "text").getD [] = [] := by
  unfold loadRow at loaded
  simp only [Option.bind_eq_bind, Option.bind_eq_some_iff, Option.pure_def, Option.some.injEq] at loaded
  obtain ⟨dir, _, sig, _, resolved, _, rfl⟩ := loaded
  simp only [backfilled]
  split
  next blank => exact Or.inr blank
  next => exact Or.inl rfl

/-- A row loads with the lifecycle a rewrite gives it, and is otherwise the same. -/
theorem loadRow_insert_lifecycle (fields : RowFields) {lc : Nat} (byte : lc < 256) :
    loadRow tables geo disk (fields.insert "lifecycle" (.number lc)) =
      (loadRow tables geo disk fields).map fun ep => { ep with lifecycle := lc } := by
  have read : (((fields.insert "lifecycle" (.number lc)).get "lifecycle").bind
      JsonField.asU64).getD 0 % 256 = lc := by
    rw [RowFields.get_insert_self, Option.bind_some, JsonField.asU64, if_pos (by omega),
      Option.getD_some, Int.toNat_natCast, Nat.mod_eq_of_lt byte]
  have others : ∀ key, key ≠ "lifecycle" →
      (fields.insert "lifecycle" (.number lc)).get key = fields.get key := fun key different =>
    fields.get_insert_of_ne different _
  have texts : ∀ key, key ≠ "lifecycle" →
      (fields.insert "lifecycle" (.number lc)).str key = fields.str key := fun key different =>
    fields.str_insert_of_ne different _
  have policy : rowPolicy tables (fields.insert "lifecycle" (.number lc)) =
      rowPolicy tables fields := by
    simp only [rowPolicy, texts _ (by decide : "mem_class" ≠ "lifecycle"),
      texts _ (by decide : "mem_delivery" ≠ "lifecycle"),
      texts _ (by decide : "mem_decline_when" ≠ "lifecycle"),
      texts _ (by decide : "mem_decline_message" ≠ "lifecycle")]
  unfold loadRow
  simp only [others _ (by decide : "dir" ≠ "lifecycle"),
    others _ (by decide : "ring2_path" ≠ "lifecycle"),
    others _ (by decide : "npos" ≠ "lifecycle"), texts _ (by decide : "sig_bits" ≠ "lifecycle"),
    texts _ (by decide : "name" ≠ "lifecycle"), texts _ (by decide : "topic" ≠ "lifecycle"),
    texts _ (by decide : "text" ≠ "lifecycle"), policy, read, Option.bind_eq_bind,
    Option.map_bind, Function.comp_def, Option.map_some, Option.pure_def]

end Loading

/-! ## Rewrites -/

namespace RegistryLine

/-- The text a rewrite compares with. -/
def ownText : RegistryLine → Option Text
  | .row _ fields => fields.str "text"
  | .blank => none
  | .malformed => none
  | .scalar => none

/-- Whether the filter of a forgetting rewrite keeps a line: one that does not parse as it
stands is kept unless it is blank. -/
def keeps (victims : List Text) : RegistryLine → Bool
  | .blank => false
  | .malformed => true
  | .scalar => true
  | .row foreign fields => foreign || !(fields.str "text").any victims.contains

/-- `mark_superseded_registry` on one line, which it writes back trimmed. -/
def mark (victim : Text) (lc : Nat) : RegistryLine → Option RegistryLine
  | .blank => none
  | .malformed => some .malformed
  | .scalar => some .scalar
  | .row _ fields =>
      some (.row false
        (if fields.str "text" = some victim then fields.insert "lifecycle" (.number lc)
          else fields))

end RegistryLine

def forgetRewrite (victims : List Text) (lines : List RegistryLine) : List RegistryLine :=
  lines.filter (RegistryLine.keeps victims)

/-- `mark_superseded_registry`. -/
def markSupersededRegistry (victim : Text) (lc : Nat) (lines : List RegistryLine) :
    List RegistryLine := lines.filterMap (RegistryLine.mark victim lc)

end KairosEngine.Daemon
