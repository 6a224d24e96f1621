import KairosEngine.Daemon.EpisodeOkf

/-!
# Reclassifying a concept file

`rewrite_okf_class` copies the file line by line and changes over between header and body at every
`---` line; `parse_okf_policy` and `okf_body` count the first two only.
-/

namespace KairosEngine.Daemon

open KairosEngine.Library KairosEngine.Swarm

/-! ## The rewriter -/

/-- The lines of the policy that are written in front of the closing fence. -/
def policyFront (classMap : String → Option String) (className : String) : List (String × Text) :=
  let pol := MemPolicy.fromClass classMap className
  let auth :=
    if className = "private-secret" then "private"
    else if className = "persona" ∨ className = "preference" ∨ className = "fact" ∨
        className = "episodic-event" then "supplements"
    else "overrides-prior"
  [("mem_class", className.toList), ("mem_delivery", pol.delivery.toList),
    ("mem_authority", auth.toList)] ++ declineFront pol

/-- The five keys of a policy as the rewriter looks for them. -/
def dropKeys : List Text :=
  ["mem_class:", "mem_delivery:", "mem_authority:", "mem_decline_when:",
    "mem_decline_message:"].map String.toList

section Rewriting

variable (tables : Unicode)

/-- `trim_start` and `starts_with` with one of the five keys. -/
def okfDropped (line : Text) : Bool :=
  dropKeys.any fun key => key.isPrefixOf (line.dropWhile tables.isWhitespace)

/-- The loop of `rewrite_okf_class` over the lines, with `in_fm` and `wrote`. -/
def rewriteLines (policy : List Text) : Bool → Bool → List Text → List Text
  | _, _, [] => []
  | inFm, wrote, line :: rest =>
      if tables.trim line = "---".toList then
        (if inFm && !wrote then policy else []) ++
          "---".toList :: rewriteLines policy (!inFm) (wrote || inFm) rest
      else if inFm && okfDropped tables line then rewriteLines policy inFm wrote rest
      else line :: rewriteLines policy inFm wrote rest

/-- `rewrite_okf_class`: what is written in place of the file. -/
def rewriteOkfClass (classMap : String → Option String) (className : String) (raw : Text) : Text :=
  endLines (rewriteLines tables ((policyFront classMap className).map frontLine) false false
    (textLines raw))

/-- The lines that the rewriter takes for lines of a header. -/
def openLines : Bool → List Text → List Text
  | _, [] => []
  | inFm, line :: rest =>
      if tables.trim line = "---".toList then openLines (!inFm) rest
      else if inFm then line :: openLines inFm rest
      else openLines inFm rest

/-- A rule without its margins, any other line without the carriage return of its line end. -/
def bareLine (line : Text) : Text :=
  if tables.trim line = "---".toList then "---".toList else stripCarriage line

/-- A text that begins with a frontmatter. -/
structure FrontedText (text : Text) where
  first : Text
  header : List Text
  second : Text
  body : List Text
  lines : textLines text = first :: (header ++ second :: body)
  opens : tables.trim first = "---".toList
  closes : tables.trim second = "---".toList
  inside : ∀ line ∈ header, tables.trim line ≠ "---".toList

end Rewriting

/-! ## What the readers see of a frontmatter -/

namespace FrontedText

variable {tables : Unicode} {text : Text} (file : FrontedText tables text)

theorem frontmatter_eq : frontmatter tables text = file.header := by
  let outside : Text → Bool := fun line => !decide (tables.trim line = "---".toList)
  have fence : ∀ {line}, tables.trim line = "---".toList → ¬ outside line = true := by
    intro line same
    rw [Bool.not_eq_true, Bool.not_eq_false', decide_eq_true_eq]
    exact same
  have inside : ∀ line ∈ file.header, outside line = true := by
    intro line member
    rw [Bool.not_eq_true', decide_eq_false_iff_not]
    exact file.inside line member
  have cut : frontmatter tables text =
      (((textLines text).dropWhile outside).drop 1).takeWhile outside := rfl
  rw [cut, file.lines, List.dropWhile_cons_of_neg (fence file.opens), List.drop_one,
    List.tail_cons, List.takeWhile_append_of_pos inside,
    List.takeWhile_cons_of_neg (fence file.closes), List.append_nil]

theorem okfBody_eq : okfBody tables text = tables.trim (endLines file.body) := by
  have fence : ∀ {line}, tables.trim line = "---".toList → ∀ fences < 2,
      okfLine tables (fences, []) line = (fences + 1, []) := by
    intro line same fences few
    rw [okfLine, if_pos ⟨same, few⟩]
  have read : (textLines text).foldl (okfLine tables) (0, []) = (2, endLines file.body) := by
    rw [file.lines, List.foldl_cons, fence file.opens 0 (by decide), List.foldl_append,
      okfLine_open file.inside, List.foldl_cons, fence file.closes 1 (by decide), okfLine_body,
      List.nil_append]
  rw [okfBody, read]
  exact congrArg tables.trim (if_pos (Nat.le_refl 2))

end FrontedText

/-! ## The rewritten file -/

section Rewritten

variable {tables : Unicode} {policy : List Text}

theorem rewriteLines_header {header : List Text}
    (inside : ∀ line ∈ header, tables.trim line ≠ "---".toList) {second : Text}
    (closes : tables.trim second = "---".toList) (body : List Text) :
    rewriteLines tables policy true false (header ++ second :: body) =
      header.filter (fun line => !okfDropped tables line) ++
        (policy ++ "---".toList :: rewriteLines tables policy false true body) := by
  induction header with
  | nil => exact if_pos closes
  | cons line rest inductionHypothesis =>
      have later := inductionHypothesis fun other member =>
        inside other (List.mem_cons_of_mem line member)
      rw [List.cons_append, rewriteLines, if_neg (inside line List.mem_cons_self), Bool.true_and,
        later]
      cases dropped : okfDropped tables line with
      | false =>
          rw [List.filter_cons_of_pos (by rw [dropped]; rfl)]
          rfl
      | true =>
          rw [List.filter_cons_of_neg (by rw [dropped]; nofun)]
          rfl

/-- Once the policy stands, every line of the file is kept that is not taken for one of a header. -/
theorem rewriteLines_body {inFm : Bool} {body : List Text}
    (kept : ∀ line ∈ openLines tables inFm body, okfDropped tables line = false) :
    (rewriteLines tables policy inFm true body).map stripCarriage = body.map (bareLine tables) := by
  induction body generalizing inFm with
  | nil => rfl
  | cons line rest inductionHypothesis =>
      rw [rewriteLines, List.map_cons, bareLine]
      rw [openLines] at kept
      by_cases fence : tables.trim line = "---".toList
      · rw [if_pos fence] at kept
        rw [if_pos fence, if_pos fence, Bool.not_true, Bool.and_false, Bool.true_or,
          ← inductionHypothesis kept]
        rfl
      · rw [if_neg fence] at kept
        rw [if_neg fence, if_neg fence]
        cases inFm with
        | false =>
            rw [← @inductionHypothesis false kept]
            rfl
        | true =>
            have here : okfDropped tables line = false := kept line List.mem_cons_self
            rw [here, Bool.and_false, ← @inductionHypothesis true fun other member =>
              kept other (List.mem_cons_of_mem line member)]
            rfl

theorem mem_rewriteLines {inFm wrote : Bool} {lines : List Text} {line : Text}
    (member : line ∈ rewriteLines tables policy inFm wrote lines) :
    line ∈ lines ∨ line ∈ policy ∨ line = "---".toList := by
  induction lines generalizing inFm wrote with
  | nil => cases member
  | cons head rest inductionHypothesis =>
      have later : ∀ {inFm wrote}, line ∈ rewriteLines tables policy inFm wrote rest →
          line ∈ head :: rest ∨ line ∈ policy ∨ line = "---".toList := fun found =>
        (inductionHypothesis found).imp_left (List.mem_cons_of_mem head)
      rw [rewriteLines] at member
      split at member
      · rcases List.mem_append.mp member with written | behind
        · split at written
          · exact .inr (.inl written)
          · cases written
        · rcases List.mem_cons.mp behind with rule | behind
          · exact .inr (.inr rule)
          · exact later behind
      · split at member
        · exact later member
        · rcases List.mem_cons.mp member with same | behind
          · exact .inl (same ▸ List.mem_cons_self)
          · exact later behind

end Rewritten

section Policy

variable {classMap : String → Option String} {className : String}

/-- The written policy is the end of what the sidecar of an episode begins with. -/
theorem policyFront_suffix (text name : Text) :
    policyFront classMap className <:+ episodeFront classMap text className name :=
  ⟨(episodeFront classMap text className name).take 7, rfl⟩

theorem okfKey_of_mem_policyFront {entry : String × Text}
    (member : entry ∈ policyFront classMap className) : OkfKey entry.1 :=
  okfKey_of_mem ((policyFront_suffix [] []).mem member)

theorem single_of_mem_policyFront (classLine : '\n' ∉ className.toList)
    (deliveryLine : '\n' ∉ (MemPolicy.fromClass classMap className).delivery.toList)
    {entry : String × Text} (member : entry ∈ policyFront classMap className) :
    '\n' ∉ frontLine entry := by
  have value : '\n' ∉ entry.2 := by
    have inside := (policyFront_suffix [] []).mem member
    rcases single_of_mem classLine List.not_mem_nil inside with line | rfl
    · exact line
    · exact deliveryLine
  have front : '\n' ∉ entry.1.toList := (okfKey_of_mem_policyFront member).plain (by decide)
  have colon : '\n' ∉ ": ".toList := by decide
  simp only [frontLine, List.mem_append, not_or]
  exact ⟨⟨front, colon⟩, value⟩

end Policy

/-! ## The readers on the rewritten file -/

section Reclassified

variable {tables : Unicode} (ascii : AsciiSpace tables) {text : Text}
  (file : FrontedText tables text) {classMap : String → Option String} {className : String}
  (classLine : '\n' ∉ className.toList)
  (deliveryLine : '\n' ∉ (MemPolicy.fromClass classMap className).delivery.toList)

/-- The lines of the header that the rewriter keeps. -/
def FrontedText.keptHeader : List Text :=
  (file.header.filter fun line => !okfDropped tables line).map stripCarriage

def policyLines (classMap : String → Option String) (className : String) : List Text :=
  (policyFront classMap className).map fun entry => stripCarriage (frontLine entry)

include classLine deliveryLine in
theorem textLines_rewriteOkfClass :
    textLines (rewriteOkfClass tables classMap className text) =
      "---".toList :: ((file.keptHeader ++ policyLines classMap className) ++ "---".toList ::
        (rewriteLines tables ((policyFront classMap className).map frontLine) false true
          file.body).map stripCarriage) := by
  have dashes : stripCarriage "---".toList = "---".toList := by decide
  have single : ∀ line ∈ rewriteLines tables ((policyFront classMap className).map frontLine)
      false false (textLines text), endedLines line = [stripCarriage line] := by
    intro line member
    apply endedLines_single
    rcases mem_rewriteLines member with read | written | rfl
    · exact newline_not_mem_textLines read
    · obtain ⟨entry, listed, rfl⟩ := List.mem_map.mp written
      exact single_of_mem_policyFront classLine deliveryLine listed
    · decide
  have opened : rewriteLines tables ((policyFront classMap className).map frontLine) false false
      (textLines text) = "---".toList :: (file.header.filter (fun line => !okfDropped tables line) ++
        ((policyFront classMap className).map frontLine ++ "---".toList ::
          rewriteLines tables ((policyFront classMap className).map frontLine) false true
            file.body)) := by
    rw [file.lines, rewriteLines, if_pos file.opens, ← rewriteLines_header file.inside file.closes]
    rfl
  rw [rewriteOkfClass, textLines_endLines, List.flatMap_congr single, ← List.map_eq_flatMap, opened,
    List.map_cons, List.map_append, List.map_append, List.map_cons, List.map_map, dashes,
    List.append_assoc]
  rfl

include ascii in
/-- The rewritten file begins with a frontmatter again. -/
def FrontedText.rewritten : FrontedText tables (rewriteOkfClass tables classMap className text) where
  first := "---".toList
  header := file.keptHeader ++ policyLines classMap className
  second := "---".toList
  body := (rewriteLines tables ((policyFront classMap className).map frontLine) false true
    file.body).map stripCarriage
  lines := textLines_rewriteOkfClass file classLine deliveryLine
  opens := ascii.trim_dashes
  closes := ascii.trim_dashes
  inside := by
    intro line member
    rcases List.mem_append.mp member with old | new
    · obtain ⟨read, listed, rfl⟩ := List.mem_map.mp old
      rw [ascii.trim_stripCarriage]
      exact file.inside read (List.mem_of_mem_filter listed)
    · obtain ⟨entry, listed, rfl⟩ := List.mem_map.mp new
      rw [ascii.trim_stripCarriage, frontLine, List.append_assoc]
      exact (okfKey_of_mem_policyFront listed).not_fence ascii _

/-- A line that the rewriter keeps and the parser takes for a decline line, such as one with a blank
before its colon. -/
def FrontedText.DeclineLeft : Prop :=
  ∃ line ∈ file.header, okfDropped tables line = false ∧
    ∃ value, keyValue tables line = some ("mem_decline_when".toList, value) ∨
      keyValue tables line = some ("mem_decline_message".toList, value)

include ascii classLine deliveryLine in
/-- The values a key has in the rewritten header: those of kept lines, then those of the policy. -/
theorem frontValue_rewriteOkfClass (key : String) :
    frontValue tables (rewriteOkfClass tables classMap className text) key =
      ((file.keptHeader.filterMap (keyValue tables)).filterMap
          (fun entry => if entry.1 = key.toList then some entry.2 else none) ++
        ((policyFront classMap className).filter fun entry => entry.1 = key).map
          fun entry => tables.trim entry.2).getLast? := by
  have header := (file.rewritten ascii classLine deliveryLine).frontmatter_eq
  have written := frontLines_values ascii
    (fun entry => @okfKey_of_mem_policyFront classMap className entry) key
  rw [frontValue, header, ← written, ← List.filterMap_append, ← List.filterMap_append]
  rfl

include ascii file classLine deliveryLine in
theorem frontValue_of_policy {key : String} {value : Text}
    (written : (policyFront classMap className).filter (fun entry => entry.1 = key) =
      [(key, value)]) :
    frontValue tables (rewriteOkfClass tables classMap className text) key =
      some (tables.trim value) := by
  rw [frontValue_rewriteOkfClass ascii file classLine deliveryLine, written, List.map_singleton,
    List.getLast?_concat]

include ascii classLine deliveryLine in
theorem frontValue_of_left {key : String}
    (unwritten : (policyFront classMap className).filter (fun entry => entry.1 = key) = [])
    (gone : ∀ line ∈ file.header, okfDropped tables line = false →
      ∀ value, keyValue tables line ≠ some (key.toList, value)) :
    frontValue tables (rewriteOkfClass tables classMap className text) key = none := by
  have unread : (file.keptHeader.filterMap (keyValue tables)).filterMap
      (fun entry => if entry.1 = key.toList then some entry.2 else none) = [] := by
    apply List.filterMap_eq_nil_iff.mpr
    intro entry member
    obtain ⟨line, kept, read⟩ := List.mem_filterMap.mp member
    obtain ⟨whole, listed, rfl⟩ := List.mem_map.mp kept
    obtain ⟨inside, undropped⟩ := List.mem_filter.mp listed
    rw [ascii.keyValue_stripCarriage] at read
    apply if_neg
    intro same
    apply gone whole inside ((Bool.not_eq_true' _).mp undropped) entry.2
    rw [read, ← same]
  rw [frontValue_rewriteOkfClass ascii file classLine deliveryLine, unwritten, unread]
  rfl

include ascii classLine deliveryLine in
/-- The policy of the rewritten file: what `from_class` gives, each value trimmed. -/
theorem parseOkfPolicy_rewriteOkfClass
    (declines : className = "private-secret" ∨ ¬ file.DeclineLeft) :
    parseOkfPolicy tables (rewriteOkfClass tables classMap className text) =
      some { MemPolicy.fromClass classMap className with
        className := String.ofList (tables.trim className.toList)
        delivery := String.ofList
          (tables.trim (MemPolicy.fromClass classMap className).delivery.toList) } := by
  have value := @frontValue_of_policy tables ascii text file classMap className classLine deliveryLine
  have left := @frontValue_of_left tables ascii text file classMap className classLine deliveryLine
  by_cases secret : className = "private-secret"
  · subst secret
    have named := @value "mem_class" "private-secret".toList (by simp [policyFront, declineFront_secret])
    have delivered := @value "mem_delivery"
      (MemPolicy.fromClass classMap "private-secret").delivery.toList
      (by simp [policyFront, declineFront_secret])
    have cases := @value "mem_decline_when" "[zero-inference, attribute-absent]".toList
      (by simp [policyFront, declineFront_secret])
    have message := @value "mem_decline_message"
      "I have a record for that entity, but it does not include that specific detail.".toList
      (by simp [policyFront, declineFront_secret])
    have visible := @AsciiSpace.trim_visible tables ascii
      "I have a record for that entity, but it does not include that specific detail.".toList
      (by decide)
    have entries := commaList_declineWhen ascii
    rw [parseOkfPolicy, named, delivered, cases, message, visible]
    simp only [Option.map_some, Option.getD_some, entries]
    rfl
  · have plain : policyFront classMap className = [("mem_class", className.toList),
        ("mem_delivery", (MemPolicy.fromClass classMap className).delivery.toList),
        ("mem_authority", _)] ++ [] :=
      congrArg (_ ++ ·) (declineFront_other secret)
    have gone := declines.resolve_left secret
    have named := @value "mem_class" className.toList (by simp [plain])
    have delivered := @value "mem_delivery"
      (MemPolicy.fromClass classMap className).delivery.toList (by simp [plain])
    have cases := @left "mem_decline_when" (by simp [plain]) fun line member kept value read =>
      gone ⟨line, member, kept, value, .inl read⟩
    have message := @left "mem_decline_message" (by simp [plain]) fun line member kept value read =>
      gone ⟨line, member, kept, value, .inr read⟩
    rw [parseOkfPolicy, named, delivered, cases, message, MemPolicy.fromClass, if_neg secret,
      if_neg secret]
    rfl

end Reclassified

/-! ## What stands in front of the first rule -/

section Preamble

variable {tables : Unicode} {before : List Text}

theorem textLines_preamble (single : ∀ line ∈ before, '\n' ∉ line) (text : Text) :
    textLines (endLines before ++ text) = before.map stripCarriage ++ textLines text := by
  induction before with
  | nil => rfl
  | cons line rest inductionHypothesis =>
      have later := inductionHypothesis fun other member =>
        single other (List.mem_cons_of_mem line member)
      rw [endLines_cons, List.append_assoc, List.cons_append, textLines_append, later,
        endedLines_single (single line List.mem_cons_self)]
      rfl

/-- The lines in front of the first rule say nothing. -/
theorem parseOkfPolicy_preamble (ascii : AsciiSpace tables) (single : ∀ line ∈ before, '\n' ∉ line)
    (plain : ∀ line ∈ before, tables.trim line ≠ "---".toList) (text : Text) :
    parseOkfPolicy tables (endLines before ++ text) = parseOkfPolicy tables text := by
  have passed : ∀ line ∈ before.map stripCarriage,
      (!decide (tables.trim line = "---".toList)) = true := by
    intro line member
    obtain ⟨whole, listed, rfl⟩ := List.mem_map.mp member
    rw [ascii.trim_stripCarriage, Bool.not_eq_true', decide_eq_false_iff_not]
    exact plain whole listed
  have same : frontmatter tables (endLines before ++ text) = frontmatter tables text := by
    rw [frontmatter, textLines_preamble single]
    dsimp only
    rw [List.dropWhile_append_of_pos passed]
    rfl
  simp only [parseOkfPolicy, frontValue, same]

theorem rewriteLines_preamble {policy : List Text} {wrote : Bool}
    (plain : ∀ line ∈ before, tables.trim line ≠ "---".toList) (rest : List Text) :
    rewriteLines tables policy false wrote (before ++ rest) =
      before ++ rewriteLines tables policy false wrote rest := by
  induction before with
  | nil => rfl
  | cons line others inductionHypothesis =>
      rw [List.cons_append, rewriteLines, if_neg (plain line List.mem_cons_self), Bool.false_and,
        inductionHypothesis fun other member => plain other (List.mem_cons_of_mem line member)]
      rfl

/-- Every list of lines is the lines of a text. -/
theorem textLines_carriage {lines : List Text} (single : ∀ line ∈ lines, '\n' ∉ line) :
    textLines (endLines (lines.map fun line => line ++ ['\r'])) = lines := by
  have ended : ∀ line ∈ lines, endedLines (line ++ ['\r']) = [line] := by
    intro line member
    have whole : '\n' ∉ line ++ ['\r'] := by
      rw [List.mem_append]
      exact not_or.mpr ⟨single line member, by decide⟩
    rw [endedLines_single whole, stripCarriage, List.getLast?_concat, if_pos rfl,
      List.dropLast_concat]
  rw [textLines_endLines, List.flatMap_map, List.flatMap_congr ended, ← List.map_eq_flatMap,
    List.map_id']

/-- The text has a second rule, at which `rewrite_okf_class` writes the policy. -/
def closesFront (tables : Unicode) (text : Text) : Bool :=
  decide (2 ≤ (textLines text).countP fun line => decide (tables.trim line = "---".toList))

/-- A text with two rules is rewritten as what stands in front of the first, and a text that begins
with its frontmatter. -/
theorem closesFront_spec {text : Text} (closed : closesFront tables text = true) :
    ∃ before inner, (∀ line ∈ before, '\n' ∉ line) ∧
      (∀ line ∈ before, tables.trim line ≠ "---".toList) ∧ Nonempty (FrontedText tables inner) ∧
      ∀ classMap className, rewriteOkfClass tables classMap className text =
        endLines before ++ rewriteOkfClass tables classMap className inner := by
  let rule : Text → Bool := fun line => decide (tables.trim line = "---".toList)
  have outside : ∀ {lines : List Text}, (∀ line ∈ lines, (!rule line) = true) →
      ∀ line ∈ lines, tables.trim line ≠ "---".toList := by
    intro lines plain line member
    have other := plain line member
    rw [Bool.not_eq_true'] at other
    exact of_decide_eq_false other
  have found : ∀ {lines : List Text}, 0 < lines.countP rule → ∃ line rest before,
      lines = before ++ line :: rest ∧ rule line = true ∧ ∀ line ∈ before, (!rule line) = true := by
    intro lines some_
    obtain ⟨line, first⟩ := Option.isSome_iff_exists.mp
      (List.find?_isSome.mpr (List.countP_pos_iff.mp some_))
    obtain ⟨here, before, rest, split, plain⟩ := List.find?_eq_some_iff_append.mp first
    exact ⟨line, rest, before, split, here, plain⟩
  have two : 2 ≤ (textLines text).countP rule := of_decide_eq_true closed
  obtain ⟨first, rest, before, lines, opens, plain⟩ := found (Nat.zero_lt_of_lt two)
  have none : before.countP rule = 0 := List.countP_eq_zero.mpr fun line member same => by
    have other := plain line member
    rw [same] at other
    cases other
  rw [lines, List.countP_append, none, Nat.zero_add, List.countP_cons_of_pos opens] at two
  obtain ⟨second, body, header, rfl, closes, inside⟩ := found (Nat.succ_le_succ_iff.mp two)
  have single : ∀ line ∈ before ++ first :: (header ++ second :: body), '\n' ∉ line := fun line member =>
    newline_not_mem_textLines (lines ▸ member)
  have reads := textLines_carriage fun line member =>
    single line (List.mem_append_right before member)
  refine ⟨before, _, fun line member => single line (List.mem_append_left _ member),
    outside plain, ⟨{
      first, header, second, body
      lines := reads
      opens := of_decide_eq_true opens
      closes := of_decide_eq_true closes
      inside := outside inside }⟩, fun classMap className => ?_⟩
  rw [rewriteOkfClass, lines, rewriteLines_preamble (outside plain), rewriteOkfClass, reads,
    endLines, List.flatMap_append]
  rfl

end Preamble

/-- A file whose body holds rules and a line that looks like a policy. -/
def ruledText : Text := "---\ntitle: a\n mem_class: fact\n---\nb\nmem_class: c\n---\nd\n".toList

def ruledFile : FrontedText Unicode.ascii ruledText where
  first := "---".toList
  header := ["title: a".toList, " mem_class: fact".toList]
  second := "---".toList
  body := ["b".toList, "mem_class: c".toList, "---".toList, "d".toList]
  lines := by decide +kernel
  opens := by decide +kernel
  closes := by decide +kernel
  inside := by decide +kernel

end KairosEngine.Daemon
