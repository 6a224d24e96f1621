import KairosEngine.Swarm.Canonical
import Mathlib.Data.List.Infix

/-!
# The sidecar of an episode

`write_episode_okf` puts free text, a class and a name into a header of lines, and
`parse_okf_policy` and `okf_body` find the header again by its `---` lines.
-/

namespace KairosEngine.Daemon

open KairosEngine.Library KairosEngine.Swarm

/-! ## Lines of a text -/

/-- The lines, each with its line end. -/
def endLines (lines : List Text) : Text := lines.flatMap fun line => line ++ ['\n']

theorem endLines_cons (line : Text) (rest : List Text) :
    endLines (line :: rest) = line ++ '\n' :: endLines rest := by
  rw [endLines, List.flatMap_cons, List.append_assoc]
  rfl

/-- A line without the carriage return of its line end. -/
def stripCarriage (line : Text) : Text :=
  if line.getLast? = some '\r' then line.dropLast else line

theorem stripCarriage_append (first : Text) {second : Text} (nonempty : second ≠ []) :
    stripCarriage (first ++ second) = first ++ stripCarriage second := by
  rw [stripCarriage, List.getLast?_append_of_ne_nil first nonempty,
    List.dropLast_append_of_ne_nil nonempty, stripCarriage]
  split
  · rfl
  · rfl

/-- The lines that a piece of a text with its line end consists of. -/
def endedLines (piece : Text) : List Text := (piece.splitOn '\n').map stripCarriage

theorem endedLines_single {piece : Text} (single : '\n' ∉ piece) :
    endedLines piece = [stripCarriage piece] := by
  rw [endedLines, List.splitOn_eq_singleton single, List.map_singleton]

theorem textLines_of_ne_nil {text : Text} (nonempty : text ≠ []) :
    textLines text =
      match (text.splitOn '\n').getLast? with
      | some [] => (text.splitOn '\n').dropLast.map stripCarriage
      | some line => (text.splitOn '\n').dropLast.map stripCarriage ++ [line]
      | none => (text.splitOn '\n').dropLast.map stripCarriage := by
  cases text with
  | nil => exact absurd rfl nonempty
  | cons head rest => rfl

theorem textLines_append (first second : Text) :
    textLines (first ++ '\n' :: second) = endedLines first ++ textLines second := by
  have pieces : (first ++ '\n' :: second).splitOn '\n' =
      first.splitOn '\n' ++ second.splitOn '\n' := List.splitOn_append_cons_self first second
  have more := List.splitOn_ne_nil '\n' second
  have broken : first ++ '\n' :: second ≠ [] := List.append_ne_nil_of_right_ne_nil first
    (List.cons_ne_nil '\n' second)
  rw [textLines_of_ne_nil broken, pieces, List.getLast?_append_of_ne_nil _ more,
    List.dropLast_append_of_ne_nil more, List.map_append, ← endedLines]
  by_cases ended : second = []
  · subst ended
    rfl
  · rw [textLines_of_ne_nil ended]
    split
    · rfl
    · rw [List.append_assoc]
    · rfl

theorem textLines_endLines (lines : List Text) :
    textLines (endLines lines) = lines.flatMap endedLines := by
  induction lines with
  | nil => rfl
  | cons line rest inductionHypothesis =>
      rw [endLines_cons, textLines_append, inductionHypothesis, List.flatMap_cons]

theorem newline_not_mem_splitOn {text piece : Text} (member : piece ∈ text.splitOn '\n') :
    '\n' ∉ piece := by
  induction text generalizing piece with
  | nil =>
      rw [List.splitOn_nil, List.mem_singleton] at member
      rw [member]
      exact List.not_mem_nil
  | cons head rest inductionHypothesis =>
      rw [List.splitOn_cons_eq_if_modifyHead] at member
      split at member
      next =>
        rcases List.mem_cons.mp member with rfl | later
        · exact List.not_mem_nil
        · exact inductionHypothesis later
      next other =>
        obtain ⟨first, others, pieces⟩ := List.exists_cons_of_ne_nil
          (List.splitOn_ne_nil '\n' rest)
        rw [pieces, List.modifyHead_cons] at member
        rw [pieces] at inductionHypothesis
        rcases List.mem_cons.mp member with rfl | later
        · intro inside
          rcases List.mem_cons.mp inside with same | inside
          · exact other (beq_iff_eq.mpr same.symm)
          · exact inductionHypothesis List.mem_cons_self inside
        · exact inductionHypothesis (List.mem_cons_of_mem first later)

/-- A line has no line break. -/
theorem newline_not_mem_textLines {text line : Text} (member : line ∈ textLines text) :
    '\n' ∉ line := by
  have ended : ∀ {line}, line ∈ (text.splitOn '\n').dropLast.map stripCarriage → '\n' ∉ line := by
    intro line listed
    obtain ⟨piece, found, rfl⟩ := List.mem_map.mp listed
    have single := newline_not_mem_splitOn (List.mem_of_mem_dropLast found)
    rw [stripCarriage]
    split
    · exact fun inside => single (List.mem_of_mem_dropLast inside)
    · exact single
  unfold textLines at member
  split at member
  · cases member
  · simp only at member
    split at member
    next => exact ended member
    next found =>
      rcases List.mem_append.mp member with before | here
      · exact ended before
      · rw [List.mem_singleton.mp here]
        exact newline_not_mem_splitOn (List.mem_of_getLast? found)
    next => exact ended member

theorem endLines_splitOn (text : Text) : endLines (text.splitOn '\n') = text ++ ['\n'] := by
  induction text with
  | nil => rfl
  | cons head rest inductionHypothesis =>
      rw [List.splitOn_cons_eq_if_modifyHead]
      split
      next newline =>
        rw [beq_iff_eq.mp newline, endLines_cons, inductionHypothesis]
        rfl
      next =>
        obtain ⟨first, others, pieces⟩ := List.exists_cons_of_ne_nil
          (List.splitOn_ne_nil '\n' rest)
        rw [pieces] at inductionHypothesis ⊢
        rw [List.modifyHead_cons, List.cons_append, ← inductionHypothesis]
        rfl

theorem unixLines_piece {piece : Text} (single : '\n' ∉ piece) (rest : Text) :
    unixLines (piece ++ '\n' :: rest) = stripCarriage piece ++ '\n' :: unixLines rest := by
  have kept : ∀ {part : Text}, '\n' ∉ part → unixLines part = part := by
    intro part single
    apply unixLines_eq_self_iff.mpr
    rintro ⟨before, behind, rfl⟩
    exact single (by simp)
  rcases List.eq_nil_or_concat' piece with rfl | ⟨front, last, rfl⟩
  · rfl
  · by_cases carriage : last = '\r'
    · subst carriage
      have clean : '\n' ∉ front := fun inside => single (List.mem_append_left _ inside)
      rw [List.append_assoc, List.singleton_append, unixLines_append (fun _ => by simp), kept clean,
        unixLines_return, stripCarriage, List.getLast?_concat, if_pos rfl, List.dropLast_concat]
    · have other : ¬ some last = some '\r' := fun same => carriage (Option.some.inj same)
      have newline : unixLines ('\n' :: rest) = '\n' :: unixLines rest := rfl
      rw [unixLines_append, kept single, newline, stripCarriage, List.getLast?_concat, if_neg other]
      intro ended
      rw [List.getLast?_concat] at ended
      exact absurd ended other

/-- Reading the lines and ending each again replaces the line ends. -/
theorem endLines_endedLines (text : Text) :
    endLines (endedLines text) = unixLines (text ++ ['\n']) := by
  have pieces : ∀ {pieces : List Text}, (∀ piece ∈ pieces, '\n' ∉ piece) →
      unixLines (endLines pieces) = endLines (pieces.map stripCarriage) := by
    intro pieces single
    induction pieces with
    | nil => rfl
    | cons piece rest inductionHypothesis =>
        rw [endLines_cons, unixLines_piece (single piece List.mem_cons_self), List.map_cons,
          endLines_cons, inductionHypothesis fun other member => single other (List.mem_cons_of_mem piece member)]
  rw [← endLines_splitOn, pieces fun piece => newline_not_mem_splitOn, endedLines]

/-! ## The writer and the reader of the body -/

/-- The lines of a policy that declines. -/
def declineFront (pol : MemPolicy) : List (String × Text) :=
  if pol.declineWhen = [] then []
  else
    [("mem_decline_when",
        '[' :: (", ".toList.intercalate (pol.declineWhen.map String.toList) ++ [']'])),
      ("mem_decline_message", pol.declineMessage)]

/-- The `key: value` lines of the header. -/
def episodeFront (classMap : String → Option String) (text : Text) (className : String)
    (name : Text) : List (String × Text) :=
  let pol := MemPolicy.fromClass classMap className
  let authority :=
    if className = "private-secret" then "private"
    else if className = "persona" ∨ className = "preference" ∨ className = "fact" ∨
        className = "episodic-event" then "supplements"
    else "overrides-prior"
  let title := (text.take 60).map fun c => if c = '\n' then ' ' else c
  [("type", "memory".toList), ("title", title), ("description", title),
    ("tags", "[mem-okf, episode, ".toList ++ className.toList ++ [']']),
    ("sp_status", "ACTIVE".toList), ("mem_kind", "episode".toList), ("mem_addr", name),
    ("mem_class", className.toList), ("mem_delivery", pol.delivery.toList),
    ("mem_authority", authority.toList)] ++ declineFront pol

def frontLine (entry : String × Text) : Text := entry.1.toList ++ ": ".toList ++ entry.2

/-- `write_episode_okf`: what is written to `ep.okf.md`. -/
def writeEpisodeOkf (classMap : String → Option String) (text : Text) (className : String)
    (name : Text) : Text :=
  endLines ("---".toList :: (episodeFront classMap text className name).map frontLine ++
    ["---".toList, [], text])

section Reading

variable (tables : Unicode)

/-- One line of `okf_body`, with the number of fences and the body so far. -/
def okfLine (state : Nat × Text) (line : Text) : Nat × Text :=
  if tables.trim line = "---".toList ∧ state.1 < 2 then (state.1 + 1, state.2)
  else if 2 ≤ state.1 then (state.1, state.2 ++ (line ++ ['\n']))
  else state

/-- `okf_body`. -/
def okfBody (text : Text) : Text :=
  let read := (textLines text).foldl (okfLine tables) (0, [])
  tables.trim (if 2 ≤ read.1 then read.2 else text)

end Reading

/-! ## Margins -/

/-- The characters that the header is made of: line ends and the space are white space, what is
visible is not. -/
structure AsciiSpace (tables : Unicode) : Prop where
  blank : ∀ c ∈ [' ', '\n', '\r'], tables.isWhitespace c = true
  visible : ∀ c : Char, 0x21 ≤ c.toNat → c.toNat ≤ 0x7E → tables.isWhitespace c = false

theorem AsciiSpace.of_ascii : AsciiSpace Unicode.ascii where
  blank c member := by fin_cases member <;> rfl
  visible c low _ := by
    have others : c ∉ [' ', '\t', '\n', '\r'] := by
      intro listed
      fin_cases listed <;> exact absurd low (by decide)
    exact Bool.eq_false_iff.mpr fun found => others (List.contains_iff_mem.mp found)

section Margins

variable {tables : Unicode} (ascii : AsciiSpace tables)

theorem trim_eq_self_iff {text : Text} : tables.trim text = text ↔ Trimmed tables text :=
  ⟨fun same => same ▸ trim_trimmed text, trim_of_trimmed⟩

theorem trim_left_margin {left : Text} (leading : ∀ c ∈ left, tables.isWhitespace c = true)
    (text : Text) : tables.trim (left ++ text) = tables.trim text := by
  rw [Unicode.trim, List.dropWhile_append_of_pos leading, Unicode.trim]

theorem trim_right_margin {right : Text} (trailing : ∀ c ∈ right, tables.isWhitespace c = true)
    (text : Text) : tables.trim (text ++ right) = tables.trim text := by
  obtain ⟨before, behind, whole, leading, ending⟩ := tables.trim_margins text
  have all : ∀ c ∈ behind ++ right, tables.isWhitespace c = true := fun c member =>
    (List.mem_append.mp member).elim (ending c) (trailing c)
  have split : text ++ right = before ++ (tables.trim text ++ (behind ++ right)) := by
    rw [← List.append_assoc, ← List.append_assoc, ← whole]
  rw [split, trim_append_margins leading all (trim_trimmed text)]

/-- A text that begins with a visible character is trimmed to one that does. -/
theorem head_trim {c : Char} (solid : tables.isWhitespace c = false) (rest : Text) :
    (tables.trim (c :: rest)).head? = some c := by
  obtain ⟨before, behind, whole, leading, ending⟩ := tables.trim_margins (c :: rest)
  cases before with
  | cons head more =>
      have same := (List.cons.inj whole).1
      cases (same ▸ leading head List.mem_cons_self).symm.trans solid
  | nil =>
      generalize tables.trim (c :: rest) = inner at whole
      cases inner with
      | cons head more => rw [(List.cons.inj whole).1, List.head?_cons]
      | nil =>
          have member : c ∈ behind := by
            rw [List.nil_append, List.nil_append] at whole
            exact whole ▸ List.mem_cons_self
          cases (ending c member).symm.trans solid

/-- How many characters are not white space. -/
def solidCount (tables : Unicode) (text : Text) : Nat :=
  text.countP fun c => !tables.isWhitespace c

theorem solidCount_append (first second : Text) :
    solidCount tables (first ++ second) = solidCount tables first + solidCount tables second :=
  List.countP_append

theorem solidCount_trim (text : Text) : solidCount tables (tables.trim text) = solidCount tables text := by
  obtain ⟨before, behind, whole, leading, ending⟩ := tables.trim_margins text
  have none : ∀ {margin : Text}, (∀ c ∈ margin, tables.isWhitespace c = true) →
      solidCount tables margin = 0 := by
    intro margin blank
    apply List.countP_eq_zero.mpr
    intro c member
    rw [blank c member]
    nofun
  have count := congrArg (solidCount tables) whole
  rw [solidCount_append, solidCount_append, none leading, none ending] at count
  omega

include ascii

theorem AsciiSpace.trim_stripCarriage (text : Text) :
    tables.trim (stripCarriage text) = tables.trim text := by
  rw [stripCarriage]
  split
  next last =>
    obtain ⟨front, rfl⟩ := List.getLast?_eq_some_iff.mp last
    rw [List.dropLast_concat, trim_right_margin]
    intro c member
    rw [List.mem_singleton.mp member]
    exact ascii.blank '\r' (by decide)
  next => rfl

theorem AsciiSpace.solidCount_unixLines (text : Text) :
    solidCount tables (unixLines text) = solidCount tables text := by
  have blank := ascii.blank '\r' (by decide)
  induction text using unixLines.induct with
  | case1 rest inductionHypothesis =>
      have skipped : solidCount tables ('\r' :: '\n' :: rest) = solidCount tables ('\n' :: rest) :=
        List.countP_cons_of_neg (by rw [blank]; decide)
      have step : ∀ tail, solidCount tables ('\n' :: tail) =
          solidCount tables ['\n'] + solidCount tables tail := solidCount_append ['\n']
      rw [unixLines_return, skipped, step, step rest, inductionHypothesis]
  | case2 c rest single inductionHypothesis =>
      have step : ∀ tail, solidCount tables (c :: tail) =
          solidCount tables [c] + solidCount tables tail := solidCount_append [c]
      rw [unixLines, step, step rest, inductionHypothesis]
      exact single
  | case3 => rfl

end Margins

/-! ## The header -/

/-- The keys of the header are small letters and underscores. -/
def OkfKey (key : String) : Prop :=
  key.toList ≠ [] ∧
    key.toList.all (fun c => decide (c = '_' ∨ 0x61 ≤ c.toNat ∧ c.toNat ≤ 0x7A)) = true

instance (key : String) : Decidable (OkfKey key) := inferInstanceAs (Decidable (_ ∧ _))

section Header

variable {tables : Unicode} (ascii : AsciiSpace tables) {classMap : String → Option String}
  {text : Text} {className : String} {name : Text}

theorem declineFront_secret : declineFront (MemPolicy.fromClass classMap "private-secret") =
    [("mem_decline_when", "[zero-inference, attribute-absent]".toList),
      ("mem_decline_message",
        "I have a record for that entity, but it does not include that specific detail.".toList)] := by
  have situations : (MemPolicy.fromClass classMap "private-secret").declineWhen =
      ["zero-inference", "attribute-absent"] := by simp only [MemPolicy.fromClass, if_true]
  have message : (MemPolicy.fromClass classMap "private-secret").declineMessage =
      "I have a record for that entity, but it does not include that specific detail.".toList := by
    simp only [MemPolicy.fromClass, if_true]
  have listed : '[' :: (", ".toList.intercalate
      (["zero-inference", "attribute-absent"].map String.toList) ++ [']']) =
      "[zero-inference, attribute-absent]".toList := by decide +kernel
  rw [declineFront, situations, message, listed, if_neg (List.cons_ne_nil _ _)]

theorem declineFront_other (other : className ≠ "private-secret") :
    declineFront (MemPolicy.fromClass classMap className) = [] := by
  rw [MemPolicy.fromClass, if_neg other]
  rfl

theorem okfKey_of_mem {entry : String × Text}
    (member : entry ∈ episodeFront classMap text className name) : OkfKey entry.1 := by
  have keys : ∀ key ∈ ["type", "title", "description", "tags", "sp_status", "mem_kind", "mem_addr",
      "mem_class", "mem_delivery", "mem_authority", "mem_decline_when", "mem_decline_message"],
      OkfKey key := by decide +kernel
  apply keys
  unfold episodeFront at member
  rcases List.mem_append.mp member with fixed | declined
  · have listed := @List.mem_map_of_mem _ _ _ _ Prod.fst fixed
    exact List.mem_append_left ["mem_decline_when", "mem_decline_message"] listed
  · unfold declineFront at declined
    split at declined
    · cases declined
    · have listed := @List.mem_map_of_mem _ _ _ _ Prod.fst declined
      exact List.mem_append_right ["type", "title", "description", "tags", "sp_status", "mem_kind",
        "mem_addr", "mem_class", "mem_delivery", "mem_authority"] listed

/-- What the delivery holds apart, every value of the header is one line. -/
theorem single_of_mem (classLine : '\n' ∉ className.toList) (nameLine : '\n' ∉ name)
    {entry : String × Text} (member : entry ∈ episodeFront classMap text className name) :
    '\n' ∉ entry.2 ∨
      entry = ("mem_delivery", (MemPolicy.fromClass classMap className).delivery.toList) := by
  have title : '\n' ∉ (text.take 60).map fun c => if c = '\n' then ' ' else c := by
    intro inside
    obtain ⟨c, -, replaced⟩ := List.mem_map.mp inside
    split at replaced
    · cases replaced
    · contradiction
  unfold episodeFront at member
  rcases List.mem_append.mp member with fixed | declined
  · simp only [List.mem_cons, List.not_mem_nil, or_false] at fixed
    rcases fixed with rfl | rfl | rfl | rfl | rfl | rfl | rfl | rfl | rfl | rfl
    · exact .inl (by decide)
    · exact .inl title
    · exact .inl title
    · apply Or.inl
      simp [classLine]
    · exact .inl (by decide)
    · exact .inl (by decide)
    · exact .inl nameLine
    · exact .inl classLine
    · exact .inr rfl
    · apply Or.inl
      dsimp only
      split
      · decide
      · split <;> decide
  · apply Or.inl
    by_cases secret : className = "private-secret"
    · subst secret
      rw [declineFront_secret] at declined
      fin_cases declined <;> decide
    · rw [declineFront_other secret] at declined
      cases declined

theorem OkfKey.letter {key : String} (good : OkfKey key) {c : Char} (member : c ∈ key.toList) :
    c = '_' ∨ 0x61 ≤ c.toNat ∧ c.toNat ≤ 0x7A :=
  of_decide_eq_true (List.all_eq_true.mp good.2 c member)

theorem OkfKey.plain {key : String} (good : OkfKey key) {c : Char} (small : c.toNat < 0x5F) :
    c ∉ key.toList := by
  intro member
  rcases good.letter member with rfl | bounds
  · exact absurd small (by decide)
  · omega

include ascii

theorem OkfKey.solid {key : String} (good : OkfKey key) {c : Char} (member : c ∈ key.toList) :
    tables.isWhitespace c = false := by
  rcases good.letter member with rfl | bounds
  · exact ascii.visible '_' (by decide) (by decide)
  · exact ascii.visible c (by omega) (by omega)

theorem OkfKey.trimmed {key : String} (good : OkfKey key) : Trimmed tables key.toList := by
  rintro c (first | last)
  · exact good.solid ascii (List.mem_of_head? first)
  · exact good.solid ascii (List.mem_of_getLast? last)

/-- A line that begins with a key is no fence. -/
theorem OkfKey.not_fence {key : String} (good : OkfKey key) (rest : Text) :
    tables.trim (key.toList ++ rest) ≠ "---".toList := by
  intro fence
  obtain ⟨c, more, letters⟩ := List.exists_cons_of_ne_nil good.1
  have inside : c ∈ key.toList := letters ▸ List.mem_cons_self
  have first := head_trim (good.solid ascii inside) (more ++ rest)
  rw [← List.cons_append, ← letters, fence] at first
  have dash : '-' = c := Option.some.inj first
  subst dash
  exact good.plain (by decide) inside

omit ascii in
theorem keyValue_colon {before : Text} (plain : ':' ∉ before) (behind : Text) :
    keyValue tables (before ++ ':' :: behind) = some (tables.trim before, tables.trim behind) := by
  have colon : ∀ c ∈ before, decide (c ≠ ':') = true := by
    intro c member
    apply decide_eq_true
    rintro rfl
    exact plain member
  have held : (before ++ ':' :: behind).contains ':' = true :=
    List.contains_iff_mem.mpr (List.mem_append_right _ List.mem_cons_self)
  rw [keyValue, if_pos held, List.takeWhile_append_of_pos colon,
    List.dropWhile_append_of_pos colon, List.takeWhile_cons_of_neg (by decide),
    List.dropWhile_cons_of_neg (by decide), List.append_nil, List.drop_one, List.tail_cons]

theorem AsciiSpace.keyValue_stripCarriage (line : Text) :
    keyValue tables (stripCarriage line) = keyValue tables line := by
  by_cases held : ':' ∈ line
  · obtain ⟨before, behind, rfl, plain⟩ := List.eq_append_cons_of_mem held
    have whole : stripCarriage (before ++ ':' :: behind) = before ++ ':' :: stripCarriage behind := by
      rw [stripCarriage_append _ (List.cons_ne_nil ':' behind)]
      cases behind with
      | nil => rfl
      | cons head rest =>
          have pushed := stripCarriage_append [':'] (List.cons_ne_nil head rest)
          exact congrArg (before ++ ·) pushed
    rw [whole, keyValue_colon plain, keyValue_colon plain, ascii.trim_stripCarriage]
  · have gone : ':' ∉ stripCarriage line := by
      rw [stripCarriage]
      split
      · exact fun inside => held (List.mem_of_mem_dropLast inside)
      · exact held
    rw [keyValue, keyValue, if_neg fun found => gone (List.contains_iff_mem.mp found),
      if_neg fun found => held (List.contains_iff_mem.mp found)]

/-- A line of the header gives back its key and its trimmed value. -/
theorem keyValue_frontLine {entry : String × Text} (good : OkfKey entry.1) :
    keyValue tables (stripCarriage (frontLine entry)) =
      some (entry.1.toList, tables.trim entry.2) := by
  obtain ⟨key, value⟩ := entry
  have line : frontLine (key, value) = key.toList ++ ':' :: ([' '] ++ value) :=
    List.append_assoc _ _ _
  have space : ∀ c ∈ [' '], tables.isWhitespace c = true := by
    intro c member
    rw [List.mem_singleton.mp member]
    exact ascii.blank ' ' (by decide)
  rw [ascii.keyValue_stripCarriage, line, keyValue_colon (good.plain (by decide)),
    trim_of_trimmed (good.trimmed ascii), trim_left_margin space]

/-- The values that lines of a header give a key. -/
theorem frontLines_values {entries : List (String × Text)}
    (keys : ∀ entry ∈ entries, OkfKey entry.1) (key : String) :
    ((entries.map fun entry => stripCarriage (frontLine entry)).filterMap
        (keyValue tables)).filterMap
          (fun entry => if entry.1 = key.toList then some entry.2 else none) =
      (entries.filter fun entry => entry.1 = key).map fun entry => tables.trim entry.2 := by
  have read : (entries.map fun entry => stripCarriage (frontLine entry)).filterMap
      (keyValue tables) = entries.map fun entry => (entry.1.toList, tables.trim entry.2) := by
    rw [List.filterMap_map, ← List.filterMap_eq_map]
    apply List.filterMap_congr
    intro entry member
    exact keyValue_frontLine ascii (keys entry member)
  rw [read, List.filterMap_map]
  clear read keys
  induction entries with
  | nil => rfl
  | cons entry rest inductionHypothesis =>
      by_cases same : entry.1 = key
      · rw [List.filterMap_cons_some (b := tables.trim entry.2), List.filter_cons_of_pos,
          List.map_cons, inductionHypothesis]
        · exact decide_eq_true same
        · simp [same]
      · rw [List.filterMap_cons_none, List.filter_cons_of_neg, inductionHypothesis]
        · simp [same]
        · simp [same, String.toList_inj]

end Header

/-! ## Both readers on the written file -/

section Sidecar

variable {tables : Unicode} (ascii : AsciiSpace tables) {classMap : String → Option String}
  {text : Text} {className : String} {name : Text}

/-- The lines between the two fences that the writer puts. -/
def headerLines (classMap : String → Option String) (text : Text) (className : String)
    (name : Text) : List Text :=
  ((episodeFront classMap text className name).map frontLine).flatMap endedLines

theorem textLines_writeEpisodeOkf :
    textLines (writeEpisodeOkf classMap text className name) =
      "---".toList :: (headerLines classMap text className name ++
        "---".toList :: [] :: endedLines text) := by
  have dashes : endedLines "---".toList = ["---".toList] := rfl
  have empty : endedLines [] = [[]] := rfl
  rw [writeEpisodeOkf, textLines_endLines, List.flatMap_append, List.flatMap_cons,
    List.flatMap_cons, List.flatMap_cons, List.flatMap_singleton, dashes, empty]
  rfl

theorem okfLine_open {lines : List Text} (open_ : ∀ line ∈ lines, tables.trim line ≠ "---".toList)
    (body : Text) : lines.foldl (okfLine tables) (1, body) = (1, body) := by
  induction lines with
  | nil => rfl
  | cons line rest inductionHypothesis =>
      have kept : okfLine tables (1, body) line = (1, body) := by
        have header : ¬ 2 ≤ 1 := by decide
        rw [okfLine, if_neg fun fence => open_ line List.mem_cons_self fence.1, if_neg header]
      rw [List.foldl_cons, kept]
      exact inductionHypothesis fun other member => open_ other (List.mem_cons_of_mem line member)

theorem okfLine_body (lines : List Text) (body : Text) :
    lines.foldl (okfLine tables) (2, body) = (2, body ++ endLines lines) := by
  induction lines generalizing body with
  | nil => rw [List.foldl_nil, endLines, List.flatMap_nil, List.append_nil]
  | cons line rest inductionHypothesis =>
      have pushed : okfLine tables (2, body) line = (2, body ++ (line ++ ['\n'])) := by
        rw [okfLine, if_neg fun fence => absurd fence.2 (Nat.lt_irrefl 2), if_pos (Nat.le_refl 2)]
      rw [List.foldl_cons, pushed, inductionHypothesis, List.append_assoc]
      rfl

/-- A fence among the lines ends the header, and what stands behind it is body. -/
theorem okfLine_closed {lines : List Text}
    (closed : ∃ line ∈ lines, tables.trim line = "---".toList) :
    ∃ behind, lines.foldl (okfLine tables) (1, []) = (2, endLines behind) := by
  induction lines with
  | nil =>
      obtain ⟨line, member, -⟩ := closed
      cases member
  | cons line rest inductionHypothesis =>
      by_cases fence : tables.trim line = "---".toList
      · have counted : okfLine tables (1, []) line = (2, []) := by
          rw [okfLine, if_pos ⟨fence, by decide⟩]
        exact ⟨rest, by rw [List.foldl_cons, counted, okfLine_body]; rfl⟩
      · have kept : okfLine tables (1, []) line = (1, []) := by
          rw [okfLine, if_neg fun both => fence both.1, if_neg (by decide)]
        rw [List.foldl_cons, kept]
        apply inductionHypothesis
        obtain ⟨found, member, dashes⟩ := closed
        rcases List.mem_cons.mp member with rfl | later
        · exact absurd dashes fence
        · exact ⟨found, later, dashes⟩

include ascii

theorem AsciiSpace.trim_visible {text : Text}
    (ends : (text.head?.toList ++ text.getLast?.toList).all
      (fun c => decide (0x21 ≤ c.toNat ∧ c.toNat ≤ 0x7E)) = true) :
    tables.trim text = text := by
  apply trim_of_trimmed
  rintro c margin
  have member : c ∈ text.head?.toList ++ text.getLast?.toList := by
    rcases margin with first | last
    · exact List.mem_append_left _ (Option.mem_toList.mpr first)
    · exact List.mem_append_right _ (Option.mem_toList.mpr last)
  have bounds := of_decide_eq_true (List.all_eq_true.mp ends c member)
  exact ascii.visible c bounds.1 bounds.2

theorem AsciiSpace.trim_dashes : tables.trim "---".toList = "---".toList :=
  ascii.trim_visible (by decide)

/-- A header without a fence inside leaves the text for the body. -/
theorem okfBody_of_open
    (open_ : ∀ line ∈ headerLines classMap text className name,
      tables.trim line ≠ "---".toList) :
    okfBody tables (writeEpisodeOkf classMap text className name) =
      tables.trim (unixLines text) := by
  have newline : ∀ c ∈ ['\n'], tables.isWhitespace c = true := by
    intro c member
    rw [List.mem_singleton.mp member]
    exact ascii.blank '\n' (by decide)
  have fence : ∀ fences < 2, okfLine tables (fences, []) "---".toList = (fences + 1, []) := by
    intro fences few
    rw [okfLine, if_pos ⟨ascii.trim_dashes, few⟩]
  have read : (textLines (writeEpisodeOkf classMap text className name)).foldl (okfLine tables)
      (0, []) = (2, '\n' :: unixLines (text ++ ['\n'])) := by
    rw [textLines_writeEpisodeOkf, List.foldl_cons, fence 0 (by decide), List.foldl_append,
      okfLine_open open_, List.foldl_cons, fence 1 (by decide), okfLine_body, List.nil_append,
      endLines_cons, endLines_endedLines]
    rfl
  have space := ascii.blank '\n' (by decide)
  have carriage := ascii.blank '\r' (by decide)
  rw [okfBody, read]
  calc tables.trim ('\n' :: unixLines (text ++ ['\n']))
      = tables.trim (unixLines (text ++ ['\n'])) := trim_left_margin newline _
    _ = unixLines (tables.trim (text ++ ['\n'])) := trim_unixLines space carriage _
    _ = unixLines (tables.trim text) := by rw [trim_right_margin newline]
    _ = tables.trim (unixLines text) := (trim_unixLines space carriage text).symm

/-- A header with a fence inside leaves more than the text for the body. -/
theorem okfBody_of_closed
    (closed : ∃ line ∈ headerLines classMap text className name,
      tables.trim line = "---".toList) :
    okfBody tables (writeEpisodeOkf classMap text className name) ≠
      tables.trim (unixLines text) := by
  obtain ⟨behind, header⟩ := okfLine_closed closed
  have first : okfLine tables (0, []) "---".toList = (1, []) := by
    rw [okfLine, if_pos ⟨ascii.trim_dashes, by decide⟩]
  have read : (textLines (writeEpisodeOkf classMap text className name)).foldl (okfLine tables)
      (0, []) = (2, endLines behind ++ ("---\n\n".toList ++ unixLines (text ++ ['\n']))) := by
    rw [textLines_writeEpisodeOkf, List.foldl_cons, first, List.foldl_append, header,
      okfLine_body, endLines_cons, endLines_cons, endLines_endedLines]
    rfl
  have dashes : solidCount tables "---\n\n".toList = 3 := by
    have solid := ascii.visible '-' (by decide) (by decide)
    have newline := ascii.blank '\n' (by decide)
    have letters : "---\n\n".toList = ['-', '-', '-', '\n', '\n'] := rfl
    simp [letters, solidCount, solid, newline]
  intro same
  have count := congrArg (solidCount tables) same
  rw [okfBody, read] at count
  simp only [le_refl, if_true, solidCount_trim, solidCount_append, ascii.solidCount_unixLines,
    dashes] at count
  omega

omit ascii in
theorem splitOn_append {first : Text} (single : '\n' ∉ first) (second : Text) :
    ∃ piece, (first ++ second).splitOn '\n' = (first ++ piece) :: (second.splitOn '\n').tail := by
  induction first with
  | nil =>
      obtain ⟨piece, others, pieces⟩ := List.exists_cons_of_ne_nil (List.splitOn_ne_nil '\n' second)
      exact ⟨piece, by rw [List.nil_append, pieces, List.nil_append, List.tail_cons]⟩
  | cons head rest inductionHypothesis =>
      obtain ⟨piece, split⟩ := inductionHypothesis fun inside =>
        single (List.mem_cons_of_mem head inside)
      have other : (head == '\n') = false :=
        beq_false_of_ne fun same => single (same ▸ List.mem_cons_self)
      refine ⟨piece, ?_⟩
      rw [List.cons_append, List.splitOn_cons_eq_if_modifyHead, other, split]
      rfl

/-- Only a line of the delivery behind its first can be a fence of the header. -/
theorem headerLines_closed_iff (classLine : '\n' ∉ className.toList) (nameLine : '\n' ∉ name) :
    (∃ line ∈ headerLines classMap text className name, tables.trim line = "---".toList) ↔
      ∃ line ∈ ((MemPolicy.fromClass classMap className).delivery.toList.splitOn '\n').tail,
        tables.trim line = "---".toList := by
  have pieces : ∀ entry ∈ episodeFront classMap text className name, ∃ rest,
      endedLines (frontLine entry) = stripCarriage (entry.1.toList ++ rest) ::
        (entry.2.splitOn '\n').tail.map stripCarriage := by
    intro entry member
    have front : '\n' ∉ entry.1.toList ++ ": ".toList := by
      intro inside
      rcases List.mem_append.mp inside with key | colon
      · exact (okfKey_of_mem member).plain (by decide) key
      · exact absurd colon (by decide)
    obtain ⟨piece, split⟩ := splitOn_append front entry.2
    refine ⟨": ".toList ++ piece, ?_⟩
    rw [endedLines, frontLine, split, List.map_cons, List.append_assoc]
  have key : ∀ entry ∈ episodeFront classMap text className name, ∀ rest,
      tables.trim (stripCarriage (entry.1.toList ++ rest)) ≠ "---".toList := by
    intro entry member rest
    rw [ascii.trim_stripCarriage]
    exact (okfKey_of_mem member).not_fence ascii rest
  constructor
  · rintro ⟨line, member, fence⟩
    obtain ⟨rendered, listed, inside⟩ := List.mem_flatMap.mp member
    obtain ⟨entry, written, rfl⟩ := List.mem_map.mp listed
    obtain ⟨rest, split⟩ := pieces entry written
    rw [split] at inside
    rcases List.mem_cons.mp inside with rfl | behind
    · exact absurd fence (key entry written rest)
    · obtain ⟨piece, found, rfl⟩ := List.mem_map.mp behind
      rw [ascii.trim_stripCarriage] at fence
      rcases single_of_mem classLine nameLine written with single | rfl
      · rw [List.splitOn_eq_singleton single] at found
        cases found
      · exact ⟨piece, found, fence⟩
  · rintro ⟨piece, found, fence⟩
    let entry : String × Text :=
      ("mem_delivery", (MemPolicy.fromClass classMap className).delivery.toList)
    have written : entry ∈ episodeFront classMap text className name :=
      List.mem_append_left _ (by simp [entry])
    obtain ⟨rest, split⟩ := pieces entry written
    refine ⟨stripCarriage piece, ?_, by rw [ascii.trim_stripCarriage, fence]⟩
    apply List.mem_flatMap.mpr
    refine ⟨frontLine entry, List.mem_map_of_mem written, ?_⟩
    rw [split]
    exact List.mem_cons_of_mem _ (List.mem_map_of_mem found)

theorem frontmatter_writeEpisodeOkf
    (open_ : ∀ line ∈ headerLines classMap text className name,
      tables.trim line ≠ "---".toList) :
    frontmatter tables (writeEpisodeOkf classMap text className name) =
      headerLines classMap text className name := by
  let outside : Text → Bool := fun line => !decide (tables.trim line = "---".toList)
  have fence : ¬ outside "---".toList = true := by
    rw [Bool.not_eq_true, Bool.not_eq_false', decide_eq_true_eq]
    exact ascii.trim_dashes
  have inside : ∀ line ∈ headerLines classMap text className name, outside line = true := by
    intro line member
    rw [Bool.not_eq_true', decide_eq_false_iff_not]
    exact open_ line member
  have cut : frontmatter tables (writeEpisodeOkf classMap text className name) =
      (((textLines (writeEpisodeOkf classMap text className name)).dropWhile outside).drop 1).takeWhile
        outside := rfl
  rw [cut, textLines_writeEpisodeOkf, List.dropWhile_cons_of_neg fence, List.drop_one,
    List.tail_cons, List.takeWhile_append_of_pos inside, List.takeWhile_cons_of_neg fence,
    List.append_nil]

section OneLine

variable (classLine : '\n' ∉ className.toList) (nameLine : '\n' ∉ name)
  (single : '\n' ∉ (MemPolicy.fromClass classMap className).delivery.toList)

include classLine nameLine single

/-- What a key of the header is read back as. -/
theorem frontValue_writeEpisodeOkf (key : String) :
    frontValue tables (writeEpisodeOkf classMap text className name) key =
      (((episodeFront classMap text className name).filter fun entry => entry.1 = key).map
        fun entry => tables.trim entry.2).getLast? := by
  have open_ : ∀ line ∈ headerLines classMap text className name,
      tables.trim line ≠ "---".toList := by
    intro line member fence
    obtain ⟨piece, found, -⟩ :=
      (headerLines_closed_iff ascii classLine nameLine).mp ⟨line, member, fence⟩
    rw [List.splitOn_eq_singleton single] at found
    cases found
  have lines : headerLines classMap text className name =
      (episodeFront classMap text className name).map fun entry =>
        stripCarriage (frontLine entry) := by
    rw [headerLines, List.flatMap_map, List.map_eq_flatMap]
    apply List.flatMap_congr
    intro entry member
    apply endedLines_single
    have value : '\n' ∉ entry.2 := by
      rcases single_of_mem classLine nameLine member with line | rfl
      · exact line
      · exact single
    have front : '\n' ∉ entry.1.toList := (okfKey_of_mem member).plain (by decide)
    have colon : '\n' ∉ ": ".toList := by decide
    simp only [frontLine, List.mem_append, not_or]
    exact ⟨⟨front, colon⟩, value⟩
  rw [frontValue, frontmatter_writeEpisodeOkf ascii open_, lines,
    frontLines_values ascii fun entry => okfKey_of_mem]

omit classLine nameLine single in
/-- The list of cases to decline in is read back as it was written. -/
theorem commaList_declineWhen :
    commaList tables (trimMatches (fun c => decide (c = '[') || decide (c = ']'))
        (tables.trim "[zero-inference, attribute-absent]".toList)) =
      ["zero-inference", "attribute-absent"] := by
  have bare : trimMatches (fun c => decide (c = '[') || decide (c = ']'))
      "[zero-inference, attribute-absent]".toList = "zero-inference, attribute-absent".toList := by
    decide
  have pieces : words (fun c => decide (c = ',')) "zero-inference, attribute-absent".toList =
      ["zero-inference".toList, [' '] ++ "attribute-absent".toList] := by decide
  have space : ∀ c ∈ [' '], tables.isWhitespace c = true := by
    intro c member
    rw [List.mem_singleton.mp member]
    exact ascii.blank ' ' (by decide)
  have entries : (words (fun c => decide (c = ',')) "zero-inference, attribute-absent".toList).map
      tables.trim = ["zero-inference".toList, "attribute-absent".toList] := by
    rw [pieces, List.map_cons, List.map_singleton, trim_left_margin space,
      ascii.trim_visible (by decide), ascii.trim_visible (by decide)]
  rw [ascii.trim_visible (by decide), bare, commaList, entries]
  decide

/-- The policy that is read back, of a one-line delivery: class and delivery trimmed. -/
theorem parseOkfPolicy_writeEpisodeOkf :
    parseOkfPolicy tables (writeEpisodeOkf classMap text className name) =
      some { MemPolicy.fromClass classMap className with
        className := String.ofList (tables.trim className.toList)
        delivery := String.ofList
          (tables.trim (MemPolicy.fromClass classMap className).delivery.toList) } := by
  have value := @frontValue_writeEpisodeOkf tables ascii classMap text className name classLine
    nameLine single
  rw [parseOkfPolicy, value, value, value, value]
  by_cases secret : className = "private-secret"
  · subst secret
    have message : tables.trim
        "I have a record for that entity, but it does not include that specific detail.".toList =
        "I have a record for that entity, but it does not include that specific detail.".toList :=
      ascii.trim_visible (by decide)
    have entries := commaList_declineWhen ascii
    simp [episodeFront, declineFront_secret] at message entries ⊢
    rw [message, entries]
    exact ⟨rfl, rfl⟩
  · have plain : (MemPolicy.fromClass classMap className).declineWhen = [] ∧
        (MemPolicy.fromClass classMap className).declineMessage = [] :=
      ⟨if_neg secret, if_neg secret⟩
    simp [episodeFront, declineFront_other secret, plain]

end OneLine

omit ascii in
/-- A value of a header has no line break. -/
theorem newline_not_mem_frontValue {file value : Text} {key : String}
    (read : frontValue tables file key = some value) : '\n' ∉ value := by
  have found := List.mem_of_getLast? read
  obtain ⟨entry, listed, kept⟩ := List.mem_filterMap.mp found
  obtain ⟨line, member, split⟩ := List.mem_filterMap.mp listed
  have single : '\n' ∉ line := newline_not_mem_textLines
    ((List.dropWhile_sublist _).mem ((List.drop_sublist 1 _).mem
      ((List.takeWhile_sublist _).mem member)))
  have trimmed : ∀ {text : Text}, '\n' ∉ text → '\n' ∉ tables.trim text := by
    intro text clean inside
    obtain ⟨before, behind, whole, -⟩ := tables.trim_margins text
    apply clean
    rw [whole]
    exact List.mem_append_left _ (List.mem_append_right _ inside)
  unfold keyValue at split
  split at split
  · rw [← Option.some.inj split] at kept
    split at kept
    · rw [← Option.some.inj kept]
      apply trimmed
      intro inside
      exact single ((List.dropWhile_sublist _).mem ((List.drop_sublist 1 _).mem inside))
    · cases kept
  · cases split

end Sidecar

theorem newline_not_mem_classDefaultDelivery (className : String) :
    '\n' ∉ (classDefaultDelivery className).toList := by
  unfold classDefaultDelivery
  split
  · decide
  · split
    · decide
    · split <;> decide

/-- The round trip through the sidecar: the policy survives where the class and its delivery are
trimmed single lines, the text where no later line of the delivery is a fence. -/
theorem writeEpisodeOkf_read (tables : Unicode) (ascii : AsciiSpace tables)
    (classMap : String → Option String) (text : Text) (className : String) (name : Text)
    (classLine : '\n' ∉ className.toList) (nameLine : '\n' ∉ name) :
    (parseOkfPolicy tables (writeEpisodeOkf classMap text className name) =
        some (MemPolicy.fromClass classMap className) ↔
      Trimmed tables className.toList ∧
        Trimmed tables (MemPolicy.fromClass classMap className).delivery.toList ∧
        '\n' ∉ (MemPolicy.fromClass classMap className).delivery.toList) ∧
    (okfBody tables (writeEpisodeOkf classMap text className name) =
        tables.trim (unixLines text) ↔
      ∀ line ∈ ((MemPolicy.fromClass classMap className).delivery.toList.splitOn '\n').tail,
        tables.trim line ≠ "---".toList) := by
  constructor
  · constructor
    · intro same
      have single : '\n' ∉ (MemPolicy.fromClass classMap className).delivery.toList := by
        unfold parseOkfPolicy at same
        obtain ⟨value, -, policy⟩ := Option.map_eq_some_iff.mp same
        rw [← policy]
        dsimp only
        cases read : frontValue tables (writeEpisodeOkf classMap text className name)
            "mem_delivery" with
        | none => exact newline_not_mem_classDefaultDelivery _
        | some delivery =>
            rw [Option.map_some, Option.getD_some, String.toList_ofList]
            exact newline_not_mem_frontValue read
      rw [parseOkfPolicy_writeEpisodeOkf ascii classLine nameLine single, Option.some_inj] at same
      have first := congrArg (fun pol => pol.className.toList) same
      have second := congrArg (fun pol => pol.delivery.toList) same
      simp only [String.toList_ofList] at first second
      exact ⟨trim_eq_self_iff.mp first, trim_eq_self_iff.mp second, single⟩
    · rintro ⟨classTrimmed, deliveryTrimmed, single⟩
      rw [parseOkfPolicy_writeEpisodeOkf ascii classLine nameLine single,
        trim_of_trimmed classTrimmed, trim_of_trimmed deliveryTrimmed, String.ofList_toList,
        String.ofList_toList]
      rfl
  · constructor
    · intro same line member fence
      apply okfBody_of_closed ascii _ same
      exact (headerLines_closed_iff ascii classLine nameLine).mpr ⟨line, member, fence⟩
    · intro single
      apply okfBody_of_open ascii
      intro line member fence
      obtain ⟨piece, found, fence⟩ :=
        (headerLines_closed_iff ascii classLine nameLine).mp ⟨line, member, fence⟩
      exact single piece found fence

/-- A text that looks like a header, under a class that declines. -/
theorem writeEpisodeOkf_read_headerLike :
    parseOkfPolicy Unicode.ascii (writeEpisodeOkf (fun _ => none)
        "---\r\nmem_class: fact\r\n---\r\n".toList "private-secret" "e1".toList) =
      some (MemPolicy.fromClass (fun _ => none) "private-secret") ∧
    okfBody Unicode.ascii (writeEpisodeOkf (fun _ => none)
        "---\r\nmem_class: fact\r\n---\r\n".toList "private-secret" "e1".toList) =
      "---\nmem_class: fact\n---".toList := by
  obtain ⟨policy, body⟩ := writeEpisodeOkf_read Unicode.ascii AsciiSpace.of_ascii (fun _ => none)
    "---\r\nmem_class: fact\r\n---\r\n".toList "private-secret" "e1".toList (by decide) (by decide)
  have trimmed : ∀ {text : Text}, Unicode.ascii.trim text = text → Trimmed Unicode.ascii text :=
    trim_eq_self_iff.mp
  refine ⟨policy.mpr ⟨trimmed (by decide), trimmed (by decide), by decide⟩, ?_⟩
  rw [body.mpr (by decide)]
  decide

/-- A class and a delivery that the parser trims, and a delivery that ends the header. -/
theorem sidecar_differs :
    parseOkfPolicy Unicode.ascii (writeEpisodeOkf (fun _ => none) "a".toList " fact" []) ≠
      some (MemPolicy.fromClass (fun _ => none) " fact") ∧
    parseOkfPolicy Unicode.ascii (writeEpisodeOkf (fun _ => some "recite ") "a".toList "fact" []) ≠
      some (MemPolicy.fromClass (fun _ => some "recite ") "fact") ∧
    okfBody Unicode.ascii (writeEpisodeOkf (fun _ => some "recite\n---") "a".toList "fact" []) ≠
      Unicode.ascii.trim (unixLines "a".toList) := by
  decide +kernel

end KairosEngine.Daemon
