import KairosEngine.Library.Attempt
import KairosEngine.Library.Occurrences
import KairosEngine.Tokenizer.ChatTemplate

/-!
# Turn markers in chat prompts

On the engine encoder no text becomes a turn marker.  The crate encodes a text with its markers,
so there the markers of a prompt are those of the template when the messages contain none.
-/

namespace KairosEngine.Tokenizer

open KairosEngine.Library

def gemmaMarkers : Markers Char where
  lead := '<'
  patterns := ["<|turn>".toList, "<turn|>".toList]
  shape := by
    intro pattern member
    rcases List.mem_pair.mp member with rfl | rfl
    · exact ⟨"|turn>".toList, rfl, by decide⟩
    · exact ⟨"turn|>".toList, rfl, by decide⟩
  prefixFree := by decide

def chatmlMarkers : Markers Char where
  lead := '<'
  patterns := ["<|im_start|>".toList, "<|im_end|>".toList]
  shape := by
    intro pattern member
    rcases List.mem_pair.mp member with rfl | rfl
    · exact ⟨"|im_start|>".toList, rfl, by decide⟩
    · exact ⟨"|im_end|>".toList, rfl, by decide⟩
  prefixFree := by decide

namespace SptbTokenizer

variable (tok : SptbTokenizer)

def markers : Markers Char := if isGemmaTurnArch tok.archId then gemmaMarkers else chatmlMarkers

/-- The token is one of the turn markers of the arch. -/
def isTurnId (id : Nat) : Bool :=
  tok.markers.patterns.any fun surface => tok.vocab[id]? = some surface

/-- The id that the crate gives to an added token; of equal surfaces its map keeps the last. -/
def addedId (surface : Text) : Option Nat :=
  (List.range tok.vocab.length).reverse.find? fun id => tok.vocab[id]? = some surface

/-- What the encoder makes of markers in a text: only the crate has added tokens. -/
def seen (surfaces : List Text) : List Text :=
  match tok.encoder with
  | .crate _ => surfaces
  | _ => []

/-- No merge results in a turn marker; the crate maps every turn marker in a text to its id, and
nothing else to one. -/
def Assumed : Prop :=
  match tok.encoder with
  | .gemma4 c => ∀ id, tok.isTurnId id = true → some id ∉ c.tables.result
  | .crate encode => ∀ text ids, encode text = .ok ids →
      ids.filter tok.isTurnId = (tok.markers.occurrences text).filterMap tok.addedId
  | .unsupported _ => True

/-- No text of a message contains a marker that the encoder sees. -/
def Clean (messages : List Message) : Prop :=
  ∀ message ∈ messages, tok.seen (tok.markers.occurrences message.role) = [] ∧
    tok.seen (tok.markers.occurrences message.content) = []

/-- The marker texts of the ChatML template. -/
def chatmlSurfaces (messages : List Message) : List Text :=
  (if needsSystem messages then ["<|im_start|>".toList, "<|im_end|>".toList] else []) ++
    ((messages.flatMap fun _ => ["<|im_start|>".toList, "<|im_end|>".toList]) ++
      ["<|im_start|>".toList])

/-- The turn ids that the template itself places. -/
def placed (messages : List Message) : List Nat :=
  if isGemmaTurnArch tok.archId then
    match tok.controlId "<|turn>".toList, tok.controlId "<turn|>".toList,
      tok.controlId "\n".toList with
    | some startTurn, some endTurn, some _ =>
        ((messages.flatMap fun _ => [startTurn, endTurn]) ++ [startTurn]).filter tok.isTurnId
    | _, _, _ => []
  else if isChatmlArch tok.archId then (tok.seen (chatmlSurfaces messages)).filterMap tok.addedId
  else []


/-! ## Surfaces -/

variable {tok}

theorem mem_turnSurfaces {surface : Text} (member : surface ∈ tok.markers.patterns) :
    surface ∈ ["<|turn>".toList, "<turn|>".toList, "<|im_start|>".toList, "<|im_end|>".toList] := by
  unfold markers at member
  split at member
  next => exact List.mem_append_left _ member
  next => exact List.mem_append_right ["<|turn>".toList, "<turn|>".toList] member

theorem isTurnId_iff {id : Nat} :
    tok.isTurnId id = true ↔ ∃ surface ∈ tok.markers.patterns, tok.vocab[id]? = some surface := by
  simp only [isTurnId, List.any_eq_true, decide_eq_true_eq]

theorem isTurnId_of_getElem {id : Nat} {surface : Text} (named : tok.vocab[id]? = some surface) :
    tok.isTurnId id = decide (surface ∈ tok.markers.patterns) := by
  rw [Bool.eq_iff_iff, isTurnId_iff, named, decide_eq_true_iff]
  constructor
  · rintro ⟨other, member, same⟩
    rwa [Option.some.inj same]
  · intro member
    exact ⟨surface, member, rfl⟩

/-- Both decoders leave a marker as it is. -/
theorem idToBytes_of_isTurnId {id : Nat} (turn : tok.isTurnId id = true) :
    ∃ surface ∈ tok.markers.patterns, tok.idToBytes[id]? = some (utf8 surface) := by
  obtain ⟨surface, member, named⟩ := isTurnId_iff.mp turn
  have plain : ∀ surface ∈ ["<|turn>".toList, "<turn|>".toList, "<|im_start|>".toList,
      "<|im_end|>".toList], surface.filterMap gpt2CharToByte = utf8 surface ∧
        surface.map unescapeSpace = surface := by decide
  obtain ⟨byCrate, byEngine⟩ := plain surface (mem_turnSurfaces member)
  refine ⟨surface, member, ?_⟩
  unfold idToBytes
  split
  next => rw [List.getElem?_map, named, Option.map_some, byCrate]
  next => rw [List.getElem?_map, named, Option.map_some, byEngine]

/-- A control token of another surface is no turn marker. -/
theorem isTurnId_controlId {surface : Text} {id : Nat} (found : tok.controlId surface = some id)
    (other : surface ∉ tok.markers.patterns) : tok.isTurnId id = false := by
  cases turn : tok.isTurnId id with
  | false => rfl
  | true =>
      obtain ⟨marker, member, read⟩ := idToBytes_of_isTurnId turn
      obtain ⟨below, same, _⟩ := List.idxOf?_eq_some_iff.mp found
      rw [List.getElem?_eq_getElem below, same, Option.some.injEq] at read
      rw [utf8_injective read] at other
      exact absurd member other

/-! ## The encoders -/

/-- The engine encoder gives a marker to no text, unless a merge results in it. -/
theorem notMem_encode {vocab : List Text} (c : CTokenizer vocab) {id : Nat} {surface : Text}
    (named : vocab[id]? = some surface)
    (marker : surface ∈ ["<|turn>".toList, "<turn|>".toList, "<|im_start|>".toList,
      "<|im_end|>".toList])
    (unmerged : some id ∉ c.tables.result) (text : Text) : id ∉ c.encode text := by
  have shape : ∀ surface ∈ ["<|turn>".toList, "<turn|>".toList, "<|im_start|>".toList,
      "<|im_end|>".toList], 6 < (utf8 surface).length ∧ 0x3C ∈ utf8 surface ∧
        surface ≠ "<bos>".toList := by decide
  obtain ⟨long, angle, notBos⟩ := shape surface marker
  have reach : OutOfReach (vocab.map utf8) c.tables id (utf8 surface) := {
    named := by rw [List.getElem?_map, named, Option.map_some]
    long := Nat.lt_of_lt_of_le (by decide) (Nat.le_of_lt long)
    notByte := by
      intro byte _ same
      rw [same] at long
      exact absurd long (Nat.lt_irrefl 6)
    mixed := ⟨0x3C, angle, by decide⟩
    unmerged }
  have notFirst : id ≠ c.bos := by
    rintro rfl
    exact notBos (Option.some.inj (named.symm.trans c.bosNamed))
  unfold CTokenizer.encode spTokenizerEncode
  split
  next => exact List.not_mem_nil
  next =>
      rw [spG4Encode, specialScan_nil _ _ _ le_rfl, List.mem_cons, not_or]
      exact ⟨notFirst, reach.notMem_fragment c.built _⟩

section Encoding

variable {text : Text} {ids : List Nat}

theorem filter_encode (assumed : tok.Assumed) (encoded : tok.encode text = .ok ids) :
    ids.filter tok.isTurnId = (tok.seen (tok.markers.occurrences text)).filterMap tok.addedId := by
  unfold encode at encoded
  unfold Assumed at assumed
  unfold seen
  split at encoded
  next c lane =>
      rw [lane] at assumed
      cases encoded
      rw [lane, List.filterMap_nil, List.filter_eq_nil_iff]
      intro id member turn
      obtain ⟨surface, marker, named⟩ := isTurnId_iff.mp turn
      exact notMem_encode c named (mem_turnSurfaces marker) (assumed id turn) text member
  next encode lane =>
      rw [lane] at assumed
      rw [lane]
      exact assumed text ids encoded
  next => cases encoded

/-- The text of a message gives no turn marker. -/
theorem filter_encodeNoBos (assumed : tok.Assumed)
    (clean : tok.seen (tok.markers.occurrences text) = []) :
    Ends (tok.encodeNoBos text) (fun ids => ids.filter tok.isTurnId = []) fun _ => True := by
  have silent : ∀ ids, tok.encode text = .ok ids → ids.filter tok.isTurnId = [] := by
    intro ids encoded
    rw [filter_encode assumed encoded, clean, List.filterMap_nil]
  unfold encodeNoBos
  split
  next c lane =>
      have encoded : tok.encode text = .ok (c.encode text) := by
        unfold encode
        rw [lane]
      have none := List.filter_eq_nil_iff.mp (silent _ encoded)
      rw [ends_ok, List.filter_eq_nil_iff]
      split
      next => exact fun id member => none id (List.mem_of_mem_drop member)
      next => exact none
  next =>
      cases encoded : tok.encode text with
      | ok ids => exact silent ids encoded
      | error message => exact trivial

end Encoding

/-! ## Prompts of single ids -/

theorem markers_lead : tok.markers.lead = '<' := by
  unfold markers
  split
  next => rfl
  next => rfl

theorem seen_nil : tok.seen [] = [] := by
  unfold seen
  split
  next => rfl
  next => rfl

/-- Text without the leading symbol contains no marker. -/
theorem seen_of_notMem {text : Text} (absent : '<' ∉ text) :
    tok.seen (tok.markers.occurrences text) = [] := by
  rw [← tok.markers_lead] at absent
  rw [Markers.occurrences_of_notMem absent, seen_nil]

theorem seen_templateRole {role : Text} (clean : tok.seen (tok.markers.occurrences role) = []) :
    tok.seen (tok.markers.occurrences (templateRole role)) = [] := by
  unfold templateRole
  split
  next => exact seen_of_notMem (by decide)
  next => exact clean

theorem filter_plain {id : Nat} (plain : tok.isTurnId id = false) (rest : List Nat) :
    (id :: rest).filter tok.isTurnId = rest.filter tok.isTurnId :=
  List.filter_cons_of_neg (Bool.eq_false_iff.mp plain)

theorem filter_turns (assumed : tok.Assumed) {messages : List Message}
    (clean : tok.Clean messages) (startTurn endTurn : Nat) {nl : Nat}
    (plain : tok.isTurnId nl = false) :
    Ends (tok.turns startTurn endTurn nl messages)
      (fun ids => ids.filter tok.isTurnId =
        (messages.flatMap fun _ => [startTurn, endTurn]).filter tok.isTurnId) fun _ => True := by
  induction messages with
  | nil => rfl
  | cons message rest inductionHypothesis =>
      obtain ⟨cleanRole, cleanContent⟩ := clean message List.mem_cons_self
      apply Ends.bind (filter_encodeNoBos assumed (seen_templateRole cleanRole))
      intro role noRole
      apply Ends.bind (filter_encodeNoBos assumed cleanContent)
      intro content noContent
      apply Ends.bind (inductionHypothesis fun later member =>
        clean later (List.mem_cons_of_mem message member))
      intro later inLater
      have pieces : startTurn :: (role ++ nl :: (content ++ endTurn :: nl :: later)) =
          [startTurn] ++ (role ++ nl :: (content ++ ([endTurn] ++ nl :: later))) := rfl
      have pair : [startTurn, endTurn].filter tok.isTurnId =
          [startTurn].filter tok.isTurnId ++ [endTurn].filter tok.isTurnId :=
        List.filter_append [startTurn] [endTurn]
      rw [ends_pure, pieces, List.filter_append, List.filter_append, noRole, List.nil_append,
        filter_plain plain, List.filter_append, noContent, List.nil_append, List.filter_append,
        filter_plain plain, inLater, List.flatMap_cons, List.filter_append, pair, List.append_assoc]

theorem notMem_markers {surface : Text} (inNeither : surface ∉ ["<|turn>".toList,
    "<turn|>".toList, "<|im_start|>".toList, "<|im_end|>".toList]) :
    surface ∉ tok.markers.patterns := fun member => inNeither (mem_turnSurfaces member)

theorem filter_channel (assumed : tok.Assumed) {nl : Nat} (plain : tok.isTurnId nl = false) :
    Ends (tok.channel nl) (fun ids => ids.filter tok.isTurnId = []) fun _ => True := by
  unfold channel
  split
  next =>
      split
      next opening closing foundOpening foundClosing =>
          have noOpening := isTurnId_controlId foundOpening (notMem_markers (by decide))
          have noClosing := isTurnId_controlId foundClosing (notMem_markers (by decide))
          apply Ends.bind (filter_encodeNoBos assumed (seen_of_notMem (by decide)))
          intro thought noThought
          rw [ends_pure, filter_plain noOpening, List.filter_append, noThought, List.nil_append,
            filter_plain plain]
          split
          next => rfl
          next => rw [filter_plain noClosing, List.filter_nil]
      next => rfl
  next => rfl

/-! ## Prompts of one text -/

section Templates

theorem closes_cons {markers : Markers Char} {c : Char}
    (outside : ∀ pattern ∈ markers.patterns, c ∉ pattern.tail) (rest : Text) :
    markers.Closes (c :: rest) := by
  intro first begins
  cases begins
  exact outside

theorem occurrences_newline {markers : Markers Char} (angle : markers.lead = '<') (rest : Text) :
    markers.occurrences ('\n' :: rest) = markers.occurrences rest := by
  have absent : markers.lead ∉ ['\n'] := by
    rw [angle]
    decide
  exact Markers.occurrences_skip absent

theorem chatml_occurrences_turn {message : Message}
    (cleanRole : chatmlMarkers.occurrences message.role = [])
    (cleanContent : chatmlMarkers.occurrences message.content = []) (rest : Text) :
    chatmlMarkers.occurrences (chatmlTurn message ++ rest) =
      "<|im_start|>".toList :: "<|im_end|>".toList :: chatmlMarkers.occurrences rest := by
  have pieces : chatmlTurn message ++ rest = "<|im_start|>".toList ++ (message.role ++
      '\n' :: (message.content ++ ("<|im_end|>".toList ++ '\n' :: rest))) := by
    unfold chatmlTurn
    simp only [List.append_assoc, List.cons_append]
    rfl
  have start : "<|im_start|>".toList ∈ chatmlMarkers.patterns := List.mem_cons_self
  have finish : "<|im_end|>".toList ∈ chatmlMarkers.patterns := List.mem_cons_of_mem _ List.mem_cons_self
  have afterRole := closes_cons (show ∀ pattern ∈ chatmlMarkers.patterns, '\n' ∉ pattern.tail by decide)
    (message.content ++ ("<|im_end|>".toList ++ '\n' :: rest))
  have afterContent : chatmlMarkers.Closes ("<|im_end|>".toList ++ '\n' :: rest) :=
    closes_cons (show ∀ pattern ∈ chatmlMarkers.patterns, '<' ∉ pattern.tail by decide) _
  rw [pieces, Markers.occurrences_pattern start, Markers.occurrences_append afterRole, cleanRole,
    List.nil_append, occurrences_newline rfl, Markers.occurrences_append afterContent, cleanContent,
    List.nil_append, Markers.occurrences_pattern finish, occurrences_newline rfl]

theorem chatml_occurrences_turns {messages : List Message}
    (clean : ∀ message ∈ messages, chatmlMarkers.occurrences message.role = [] ∧
      chatmlMarkers.occurrences message.content = []) (rest : Text) :
    chatmlMarkers.occurrences (messages.flatMap chatmlTurn ++ rest) =
      (messages.flatMap fun _ => ["<|im_start|>".toList, "<|im_end|>".toList]) ++
        chatmlMarkers.occurrences rest := by
  induction messages with
  | nil => rfl
  | cons message later inductionHypothesis =>
      obtain ⟨cleanRole, cleanContent⟩ := clean message List.mem_cons_self
      rw [List.flatMap_cons, List.append_assoc, chatml_occurrences_turn cleanRole cleanContent,
        inductionHypothesis fun other member => clean other (List.mem_cons_of_mem message member)]
      rfl

/-- Messages without markers leave the ChatML template its own. -/
theorem chatml_occurrences {messages : List Message}
    (clean : ∀ message ∈ messages, chatmlMarkers.occurrences message.role = [] ∧
      chatmlMarkers.occurrences message.content = []) :
    chatmlMarkers.occurrences (chatmlTemplate messages) = chatmlSurfaces messages := by
  have turns := chatml_occurrences_turns clean "<|im_start|>assistant\n".toList
  have prompted : chatmlMarkers.occurrences "<|im_start|>assistant\n".toList =
      ["<|im_start|>".toList] := by decide
  rw [prompted] at turns
  unfold chatmlTemplate chatmlSurfaces
  split
  next =>
      have system := @chatml_occurrences_turn ⟨"system".toList, []⟩ (by decide) (by decide)
        (messages.flatMap chatmlTurn ++ "<|im_start|>assistant\n".toList)
      rw [turns] at system
      exact system
  next => exact turns

theorem gemma_occurrences_turn {role content : Text}
    (cleanRole : gemmaMarkers.occurrences role = [])
    (cleanContent : gemmaMarkers.occurrences content = []) (rest : Text) :
    gemmaMarkers.occurrences ("<start_of_turn>".toList ++ role ++
      '\n' :: (content ++ "<end_of_turn>\n".toList) ++ rest) = gemmaMarkers.occurrences rest := by
  have pieces : "<start_of_turn>".toList ++ role ++
      '\n' :: (content ++ "<end_of_turn>\n".toList) ++ rest = "<start_of_turn>".toList ++ (role ++
        '\n' :: (content ++ ("<end_of_turn>\n".toList ++ rest))) := by
    simp only [List.append_assoc, List.cons_append]
  have opening : ∀ right, gemmaMarkers.occurrences ("<start_of_turn>".toList ++ right) =
      gemmaMarkers.occurrences right :=
    @Markers.occurrences_decoy _ _ gemmaMarkers "start_of_turn>".toList (by decide) (by decide)
  have closing : ∀ right, gemmaMarkers.occurrences ("<end_of_turn>\n".toList ++ right) =
      gemmaMarkers.occurrences right :=
    @Markers.occurrences_decoy _ _ gemmaMarkers "end_of_turn>\n".toList (by decide) (by decide)
  have afterRole := closes_cons (show ∀ pattern ∈ gemmaMarkers.patterns, '\n' ∉ pattern.tail by decide)
    (content ++ ("<end_of_turn>\n".toList ++ rest))
  have afterContent : gemmaMarkers.Closes ("<end_of_turn>\n".toList ++ rest) :=
    closes_cons (show ∀ pattern ∈ gemmaMarkers.patterns, '<' ∉ pattern.tail by decide) _
  rw [pieces, opening, Markers.occurrences_append afterRole, cleanRole, List.nil_append,
    occurrences_newline rfl, Markers.occurrences_append afterContent, cleanContent, List.nil_append,
    closing]

/-- The text template of the gemma archs places no turn marker. -/
theorem gemma_occurrences {messages : List Message}
    (clean : ∀ message ∈ messages, gemmaMarkers.occurrences (templateRole message.role) = [] ∧
      gemmaMarkers.occurrences message.content = []) :
    gemmaMarkers.occurrences (gemma3Template messages) = [] := by
  unfold gemma3Template
  induction messages with
  | nil => decide
  | cons message later inductionHypothesis =>
      obtain ⟨cleanRole, cleanContent⟩ := clean message List.mem_cons_self
      rw [List.flatMap_cons, List.append_assoc, gemma_occurrences_turn cleanRole cleanContent]
      exact inductionHypothesis fun other member => clean other (List.mem_cons_of_mem message member)

end Templates

/-! ## The ids of a prompt -/

variable {messages : List Message}

theorem seen_gemma3Template (gemma : isGemmaTurnArch tok.archId = true)
    (clean : tok.Clean messages) :
    tok.seen (tok.markers.occurrences (gemma3Template messages)) = [] := by
  have roles : ∀ message ∈ messages,
      tok.seen (tok.markers.occurrences (templateRole message.role)) = [] ∧
        tok.seen (tok.markers.occurrences message.content) = [] := fun message member =>
    ⟨seen_templateRole (clean message member).1, (clean message member).2⟩
  unfold seen at roles ⊢
  rw [markers, if_pos gemma] at roles ⊢
  split
  next lane =>
      rw [lane] at roles
      exact gemma_occurrences roles
  next => rfl

theorem seen_chatmlTemplate (other : ¬ isGemmaTurnArch tok.archId = true)
    (clean : tok.Clean messages) :
    tok.seen (tok.markers.occurrences (chatmlTemplate messages)) =
      tok.seen (chatmlSurfaces messages) := by
  unfold Clean seen at clean
  unfold seen
  rw [markers, if_neg other] at clean ⊢
  split
  next lane =>
      rw [lane] at clean
      exact chatml_occurrences clean
  next => rfl

theorem filter_bosId : tok.bosId.toList.filter tok.isTurnId = [] := by
  cases found : tok.bosId with
  | none => rfl
  | some bos =>
      obtain ⟨below, same, _⟩ := List.idxOf?_eq_some_iff.mp found
      have named : tok.vocab[bos]? = some "<bos>".toList := by
        rw [List.getElem?_eq_getElem below, same]
      have plain := isTurnId_of_getElem named
      rw [decide_eq_false (notMem_markers (by decide))] at plain
      rw [Option.toList_some, filter_plain plain, List.filter_nil]

theorem filter_encode_ends (assumed : tok.Assumed) (text : Text) :
    Ends (tok.encode text) (fun ids => ids.filter tok.isTurnId =
      (tok.seen (tok.markers.occurrences text)).filterMap tok.addedId) fun _ => True := by
  cases encoded : tok.encode text with
  | ok ids => exact filter_encode assumed encoded
  | error message => exact trivial

/-- The turn ids of a prompt are those that the template places. -/
theorem filter_applyTemplateIds (assumed : tok.Assumed) (clean : tok.Clean messages) :
    Ends (tok.applyTemplateIds messages) (fun ids => ids.filter tok.isTurnId = tok.placed messages)
      fun _ => True := by
  unfold applyTemplateIds placed
  by_cases gemma : isGemmaTurnArch tok.archId = true
  · rw [if_pos gemma, if_pos gemma]
    have fallback := filter_encode_ends assumed (gemma3Template messages)
    rw [seen_gemma3Template gemma clean, List.filterMap_nil] at fallback
    cases tok.controlId "<|turn>".toList with
    | none => exact fallback
    | some startTurn =>
        cases tok.controlId "<turn|>".toList with
        | none => exact fallback
        | some endTurn =>
            cases foundNl : tok.controlId "\n".toList with
            | none => exact fallback
            | some nl =>
                dsimp only
                have plain := isTurnId_controlId foundNl (notMem_markers (by decide))
                apply Ends.bind (filter_turns assumed clean startTurn endTurn plain)
                intro body inBody
                apply Ends.bind (filter_encodeNoBos assumed (seen_of_notMem (by decide)))
                intro model noModel
                apply Ends.bind (filter_channel assumed plain)
                intro thought noThought
                have ending : (startTurn :: (model ++ nl :: thought)).filter tok.isTurnId =
                    [startTurn].filter tok.isTurnId := by
                  rw [← List.singleton_append, List.filter_append, List.filter_append, noModel,
                    filter_plain plain, noThought, List.append_nil, List.append_nil]
                rw [ends_pure, List.filter_append, filter_bosId, List.nil_append,
                  List.filter_append, inBody, ending, List.filter_append]
  · rw [if_neg gemma, if_neg gemma]
    split
    next chatml =>
        rw [← seen_chatmlTemplate gemma clean]
        exact filter_encode_ends assumed _
    next => exact trivial

theorem flatMap_const_of_length {Value : Type} {first second : List Message}
    (same : first.length = second.length) (values : List Value) :
    (first.flatMap fun _ => values) = second.flatMap fun _ => values := by
  rw [List.flatMap_def, List.flatMap_def, List.map_const', List.map_const', same]

/-- What the template places depends on the number of messages and the first role. -/
theorem placed_eq {first second : List Message} (same : first.length = second.length)
    (begins : isChatmlArch tok.archId = true → needsSystem first = needsSystem second) :
    tok.placed first = tok.placed second := by
  unfold placed
  split
  next =>
      split
      next startTurn endTurn _ _ _ _ => rw [flatMap_const_of_length same]
      next => rfl
  next =>
      split
      next chatml =>
          rw [chatmlSurfaces, chatmlSurfaces, begins chatml, flatMap_const_of_length same]
      next => rfl

theorem filter_of_ok {ids : List Nat} (assumed : tok.Assumed) (clean : tok.Clean messages)
    (prompted : tok.applyTemplateIds messages = .ok ids) :
    ids.filter tok.isTurnId = tok.placed messages := by
  have ends := filter_applyTemplateIds assumed clean
  rwa [prompted, ends_ok] at ends

theorem clean_of_gemma4 {c : CTokenizer tok.vocab} (lane : tok.encoder = .gemma4 c)
    (messages : List Message) : tok.Clean messages := by
  intro message _
  unfold seen
  rw [lane]
  exact ⟨rfl, rfl⟩

/-- On the engine encoder a control token has its surface in the vocabulary. -/
theorem getElem_of_controlId {c : CTokenizer tok.vocab} (lane : tok.encoder = .gemma4 c)
    {surface : Text} {id : Nat} (found : tok.controlId surface = some id)
    (noSpace : ' ' ∉ surface) : tok.vocab[id]? = some surface := by
  obtain ⟨below, same, _⟩ := List.idxOf?_eq_some_iff.mp found
  have read : tok.idToBytes[id]? = some (utf8 surface) := by
    rw [List.getElem?_eq_getElem below, same]
  unfold idToBytes at read
  rw [lane, List.getElem?_map, Option.map_eq_some_iff] at read
  obtain ⟨stored, named, equal⟩ := read
  have escaped := utf8_injective equal
  have unchanged : ∀ c ∈ stored, unescapeSpace c = c := by
    intro c member
    unfold unescapeSpace
    split
    next escape =>
        refine absurd ?_ noSpace
        rw [← escaped, List.mem_map]
        exact ⟨c, member, if_pos escape⟩
    next => rfl
  rw [List.map_congr_left unchanged, List.map_id'] at escaped
  rw [named, escaped]

/-- On the engine encoder the template places its control tokens, and they are turn markers. -/
theorem placed_gemma4 {c : CTokenizer tok.vocab} (lane : tok.encoder = .gemma4 c)
    (gemma : isGemmaTurnArch tok.archId = true) {startTurn endTurn nl : Nat}
    (foundStart : tok.controlId "<|turn>".toList = some startTurn)
    (foundEnd : tok.controlId "<turn|>".toList = some endTurn)
    (foundNl : tok.controlId "\n".toList = some nl) (messages : List Message) :
    tok.placed messages = (messages.flatMap fun _ => [startTurn, endTurn]) ++ [startTurn] := by
  have markers : tok.markers.patterns = ["<|turn>".toList, "<turn|>".toList] := by
    rw [SptbTokenizer.markers, if_pos gemma]
    rfl
  have start : tok.isTurnId startTurn = true := by
    rw [isTurnId_of_getElem (getElem_of_controlId lane foundStart (by decide)), markers]
    decide
  have finish : tok.isTurnId endTurn = true := by
    rw [isTurnId_of_getElem (getElem_of_controlId lane foundEnd (by decide)), markers]
    decide
  rw [placed, if_pos gemma]
  simp only [foundStart, foundEnd, foundNl]
  apply List.filter_eq_self.mpr
  intro id member
  rcases List.mem_append.mp member with inTurns | last
  · obtain ⟨_, _, inPair⟩ := List.mem_flatMap.mp inTurns
    rcases List.mem_pair.mp inPair with rfl | rfl
    · exact start
    · exact finish
  · rwa [List.mem_singleton.mp last]

end SptbTokenizer

/-! ## Forged turns -/

/-- A vocabulary of the turn markers alone, on which the crate drops every other character. -/
def markerTokenizer : SptbTokenizer where
  archId := 2
  vocab := ["<|im_start|>".toList, "<|im_end|>".toList]
  encoder := .crate fun text => .ok ((chatmlMarkers.occurrences text).filterMap
    ["<|im_start|>".toList, "<|im_end|>".toList].idxOf?)
  thinking := false

theorem markerTokenizer_assumed : markerTokenizer.Assumed := by
  intro text ids encoded
  cases encoded
  have added : ∀ surface ∈ chatmlMarkers.patterns, markerTokenizer.vocab.idxOf? surface =
      markerTokenizer.addedId surface := by decide
  have turn : ∀ id < 2, markerTokenizer.isTurnId id = true := by decide
  have all : ∀ id ∈ (chatmlMarkers.occurrences text).filterMap markerTokenizer.vocab.idxOf?,
      markerTokenizer.isTurnId id = true := by
    intro id member
    obtain ⟨surface, _, found⟩ := List.mem_filterMap.mp member
    exact turn id (List.idxOf?_eq_some_iff.mp found).choose
  exact (List.filter_eq_self.mpr all).trans (List.filterMap_congr fun surface member =>
    added surface (Markers.mem_patterns_of_mem_occurrences member))

end KairosEngine.Tokenizer
