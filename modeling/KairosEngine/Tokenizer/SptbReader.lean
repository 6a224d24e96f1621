import KairosEngine.Library.LengthFrames
import KairosEngine.Library.Utf8
import KairosEngine.Tokenizer.TokFile

/-!
# The two readers of the SPTB blob

`sp_tokenizer_load_tokfile` hands out the strings of a blob as they stand there; `parse_sptb` decodes
each of them and splits the merge lines.
-/

namespace KairosEngine.Tokenizer

open KairosEngine.Library

/-! ## `parse_sptb` -/

/-- A merge line as a pair of strings. -/
abbrev MergePair := List Char × List Char

structure SptbData where
  typeId : Nat
  vocab : List (List Char)
  merges : List MergePair
  deriving DecidableEq

section Reader

variable (buf : Bytes)

/-- `read_u32`: the value and the new position. -/
def readU32 (pos : Nat) : Option (Nat × Nat) :=
  if pos + 4 ≤ buf.length then some (leField pos 4 buf, pos + 4) else none

/-- `read_str`. -/
def readStr (pos : Nat) : Option (List Char × Nat) := do
  let (len, pos) ← readU32 buf pos
  if pos + len ≤ buf.length then
    let s ← fromUtf8 ((buf.drop pos).take len)
    return (s, pos + len)
  else none

/-- `ok_or` on a read. -/
def okOr {Value : Type} (message : String) : Option Value → Except String Value
  | some value => .ok value
  | none => .error message

/-- A loop over entries from the one with this index on. -/
def readEach {Value : Type} (entry : Nat → Nat → Except String (Value × Nat)) :
    Nat → Nat → Nat → Except String (List Value × Nat)
  | _, 0, pos => .ok ([], pos)
  | i, count + 1, pos => do
      let (value, pos) ← entry i pos
      let (rest, pos) ← readEach entry (i + 1) count pos
      return (value :: rest, pos)

def vocabEntry (i pos : Nat) : Except String (List Char × Nat) :=
  okOr s!"SPTB: truncated vocab[{i}]" (readStr buf pos)

/-- The sides of a merge line: before and behind its first space. -/
def splitMerge (s : List Char) : Option MergePair :=
  if ' ' ∈ s then some (s.takeWhile (· ≠ ' '), (s.dropWhile (· ≠ ' ')).tail) else none

def mergeEntry (i pos : Nat) : Except String (MergePair × Nat) := do
  let (s, pos) ← okOr s!"SPTB: truncated merge[{i}]" (readStr buf pos)
  let pair ← okOr s!"SPTB: merge[{i}] has no space separator" (splitMerge s)
  return (pair, pos)

/-- `{:08X}`. -/
def hex08 (value : Nat) : String :=
  String.ofList ((List.range 8).map fun place =>
    (Nat.digitChar (value >>> (4 * (7 - place)) % 16)).toUpper)

/-- `parse_sptb`. -/
def parseSptb : Except String SptbData := do
  let (magic, pos) ← okOr "SPTB: truncated magic" (readU32 buf 0)
  if magic ≠ 0x42545053 then
    .error ("SPTB: bad magic 0x" ++ hex08 magic)
  else
    let (typeId, pos) ← okOr "SPTB: truncated type_id" (readU32 buf pos)
    let (vocabSize, pos) ← okOr "SPTB: truncated vocab_size" (readU32 buf pos)
    let (nMerges, pos) ← okOr "SPTB: truncated n_merges" (readU32 buf pos)
    let (vocab, pos) ← readEach (vocabEntry buf) 0 vocabSize pos
    -- The scores of a SentencePiece blob are passed over.
    let skip := if typeId = 0 then vocabSize * 4 else 0
    if typeId = 0 ∧ buf.length < pos + skip then
      .error "SPTB: truncated scores section"
    else
      let (merges, _) ← readEach (mergeEntry buf) 0 nMerges (pos + skip)
      return { typeId, vocab, merges }

end Reader

/-! ## The format -/

/-- A blob with its parts; what stands behind the merges is ignored. -/
structure SptbBlob where
  typeId : Nat
  vocab : List Bytes
  scores : Bytes
  merges : List Bytes
  rest : Bytes
  typeId_lt : typeId < 2 ^ 32
  vocab_lt : vocab.length < 2 ^ 32
  merges_lt : merges.length < 2 ^ 32
  token_lt : ∀ token ∈ vocab, token.length < 2 ^ 32
  line_lt : ∀ line ∈ merges, line.length < 2 ^ 32
  scores_length : scores.length = if typeId = 0 then vocab.length * 4 else 0

def frames (strings : List Bytes) : Bytes := strings.flatMap lengthFrame

theorem frames_cons (first : Bytes) (rest : List Bytes) :
    frames (first :: rest) = lengthFrame first ++ frames rest := List.flatMap_cons

def SptbBlob.bytes (blob : SptbBlob) : Bytes :=
  toLe 4 0x42545053 ++ toLe 4 blob.typeId ++ toLe 4 blob.vocab.length ++
    toLe 4 blob.merges.length ++ frames blob.vocab ++ blob.scores ++ frames blob.merges ++ blob.rest

/-! ## What `parse_sptb` makes of a blob -/

section Parsing

variable {buf before after : Bytes}

theorem readU32_field {value : Nat} (below : value < 2 ^ 32)
    (whole : buf = before ++ (toLe 4 value ++ after)) :
    readU32 buf before.length = some (value, (before ++ toLe 4 value).length) := by
  have fits : before.length + 4 ≤ buf.length := by
    simp only [whole, List.length_append, length_toLe]
    omega
  rw [readU32, if_pos fits, List.length_append, length_toLe, whole, leField_append rfl below]

theorem readStr_frame {string : Bytes} (below : string.length < 2 ^ 32)
    (whole : buf = before ++ (lengthFrame string ++ after)) :
    readStr buf before.length =
      (fromUtf8 string).map fun text => (text, (before ++ lengthFrame string).length) := by
  have prefixed : buf = before ++ (toLe 4 string.length ++ (string ++ after)) := by
    rw [whole, lengthFrame, List.append_assoc]
  have split : buf = (before ++ toLe 4 string.length) ++ (string ++ after) := by
    rw [prefixed, List.append_assoc]
  have fits : (before ++ toLe 4 string.length).length + string.length ≤ buf.length := by
    simp only [split, List.length_append]
    omega
  have read : (buf.drop (before ++ toLe 4 string.length).length).take string.length = string := by
    rw [split, List.drop_left, List.take_left]
  have end_ : (before ++ toLe 4 string.length).length + string.length =
      (before ++ lengthFrame string).length := by
    simp only [lengthFrame, List.length_append, Nat.add_assoc]
  rw [readStr, readU32_field below prefixed]
  simp only [Option.bind_eq_bind, Option.bind_some]
  rw [if_pos fits, read, end_]
  cases fromUtf8 string with
  | none => rfl
  | some text => rfl

/-- A loop whose entries are converted frames reads a run of frames. -/
theorem readEach_frames {Value : Type} {entry : Nat → Nat → Except String (Value × Nat)}
    {convert : Bytes → Option Value}
    (reads : ∀ {before after : Bytes} (i : Nat) {string : Bytes}, string.length < 2 ^ 32 →
      buf = before ++ (lengthFrame string ++ after) →
        (entry i before.length).toOption =
          (convert string).map fun value => (value, (before ++ lengthFrame string).length))
    {strings : List Bytes} (i : Nat) (below : ∀ string ∈ strings, string.length < 2 ^ 32)
    (whole : buf = before ++ (frames strings ++ after)) :
    (readEach entry i strings.length before.length).toOption =
      (strings.mapM convert).map fun values => (values, (before ++ frames strings).length) := by
  induction strings generalizing i before with
  | nil =>
      rw [frames, List.flatMap_nil, List.append_nil]
      rfl
  | cons first rest inductionHypothesis =>
      have split : buf = before ++ (lengthFrame first ++ (frames rest ++ after)) := by
        rw [whole, frames_cons, List.append_assoc]
      have moved : buf = (before ++ lengthFrame first) ++ (frames rest ++ after) := by
        rw [split, List.append_assoc]
      have now := reads i (below first List.mem_cons_self) split
      have later := inductionHypothesis (i + 1)
        (fun string member => below string (List.mem_cons_of_mem first member)) moved
      rw [List.length_cons, readEach, List.mapM_cons, frames_cons, ← List.append_assoc before]
      cases read : entry i before.length with
      | error message =>
          rw [read] at now
          rw [Option.map_eq_none_iff.mp now.symm]
          rfl
      | ok found =>
          rw [read] at now
          obtain ⟨value, converted, rfl⟩ := Option.map_eq_some_iff.mp now.symm
          rw [converted]
          cases others : readEach entry (i + 1) rest.length (before ++ lengthFrame first).length with
          | error message =>
              rw [others] at later
              simp only [bind, Except.bind, others, Option.bind_some]
              rw [Option.map_eq_none_iff.mp later.symm]
              rfl
          | ok found =>
              rw [others] at later
              obtain ⟨values, all, rfl⟩ := Option.map_eq_some_iff.mp later.symm
              simp only [bind, Except.bind, others, Option.bind_some]
              rw [all]
              rfl

/-- A line as the sides that `parse_sptb` gives it. -/
def readMerge (line : Bytes) : Option MergePair := (fromUtf8 line).bind splitMerge

theorem vocabEntry_frame (i : Nat) {string : Bytes} (below : string.length < 2 ^ 32)
    (whole : buf = before ++ (lengthFrame string ++ after)) :
    (vocabEntry buf i before.length).toOption =
      (fromUtf8 string).map fun text => (text, (before ++ lengthFrame string).length) := by
  rw [vocabEntry, readStr_frame below whole]
  cases fromUtf8 string with
  | none => rfl
  | some text => rfl

theorem mergeEntry_frame (i : Nat) {line : Bytes} (below : line.length < 2 ^ 32)
    (whole : buf = before ++ (lengthFrame line ++ after)) :
    (mergeEntry buf i before.length).toOption =
      (readMerge line).map fun pair => (pair, (before ++ lengthFrame line).length) := by
  rw [mergeEntry, readStr_frame below whole, readMerge]
  cases fromUtf8 line with
  | none => rfl
  | some text =>
      simp only [Option.map_some, Option.bind_some]
      cases split : splitMerge text with
      | none => simp only [okOr, bind, Except.bind, split, Except.toOption, Option.map_none]
      | some pair =>
          simp only [okOr, bind, Except.bind, split, Except.toOption, Option.map_some]
          rfl

end Parsing

/-! ## What both readers make of a blob -/

/-- What `parse_sptb` makes of a blob: the decoded tokens and the decoded, split merge lines. -/
theorem parseSptb_bytes (blob : SptbBlob) :
    (parseSptb blob.bytes).toOption =
      (blob.vocab.mapM fromUtf8).bind fun vocab =>
        (blob.merges.mapM readMerge).map fun merges => { typeId := blob.typeId, vocab, merges } := by
  obtain ⟨magic, named⟩ : ∃ magic, magic = toLe 4 0x42545053 := ⟨_, rfl⟩
  obtain ⟨typeField, typed⟩ : ∃ field, field = toLe 4 blob.typeId := ⟨_, rfl⟩
  obtain ⟨sizeField, sized⟩ : ∃ field, field = toLe 4 blob.vocab.length := ⟨_, rfl⟩
  obtain ⟨countField, counted⟩ : ∃ field, field = toLe 4 blob.merges.length := ⟨_, rfl⟩
  have whole : blob.bytes = magic ++ (typeField ++ (sizeField ++ (countField ++
      (frames blob.vocab ++ (blob.scores ++ (frames blob.merges ++ blob.rest)))))) := by
    rw [SptbBlob.bytes, named, typed, sized, counted]
    simp only [List.append_assoc]
  have readMagic : readU32 blob.bytes 0 = some (0x42545053, magic.length) := by
    have read := @readU32_field blob.bytes [] _ 0x42545053 (by decide) (by
      rw [whole, named, List.nil_append])
    rw [named]
    exact read
  have readType : readU32 blob.bytes magic.length =
      some (blob.typeId, (magic ++ typeField).length) := by
    rw [typed]
    exact readU32_field blob.typeId_lt (by rw [whole, typed])
  have readSize : readU32 blob.bytes (magic ++ typeField).length =
      some (blob.vocab.length, (magic ++ typeField ++ sizeField).length) := by
    rw [sized]
    exact readU32_field blob.vocab_lt (by rw [whole, sized, List.append_assoc])
  have readCount : readU32 blob.bytes (magic ++ typeField ++ sizeField).length =
      some (blob.merges.length, (magic ++ typeField ++ sizeField ++ countField).length) := by
    rw [counted]
    exact readU32_field blob.merges_lt (by rw [whole, counted, List.append_assoc, List.append_assoc])
  have vocabs := readEach_frames vocabEntry_frame 0 blob.token_lt
    (show blob.bytes = (magic ++ typeField ++ sizeField ++ countField) ++ (frames blob.vocab ++
      (blob.scores ++ (frames blob.merges ++ blob.rest))) by
        rw [whole]; simp only [List.append_assoc])
  obtain ⟨front, fronted⟩ : ∃ front, front =
      magic ++ typeField ++ sizeField ++ countField ++ frames blob.vocab := ⟨_, rfl⟩
  have lines : blob.bytes = (front ++ blob.scores) ++ (frames blob.merges ++ blob.rest) := by
    rw [whole, fronted]
    simp only [List.append_assoc]
  have merges := readEach_frames mergeEntry_frame 0 blob.line_lt lines
  have skip : ¬ (blob.typeId = 0 ∧ blob.bytes.length < (front ++ blob.scores).length) := by
    simp only [lines, List.length_append]
    omega
  have scores : front.length + (if blob.typeId = 0 then blob.vocab.length * 4 else 0) =
      (front ++ blob.scores).length := by
    rw [← blob.scores_length, List.length_append]
  rw [← fronted] at vocabs
  simp only [parseSptb, readMagic, readType, readSize, readCount, okOr, bind, Except.bind, ne_eq,
    not_true_eq_false, if_false]
  cases read : readEach (vocabEntry blob.bytes) 0 blob.vocab.length
      (magic ++ typeField ++ sizeField ++ countField).length with
  | error message =>
      rw [read] at vocabs
      rw [Option.map_eq_none_iff.mp vocabs.symm]
      rfl
  | ok found =>
      rw [read] at vocabs
      obtain ⟨vocab, decoded, rfl⟩ := Option.map_eq_some_iff.mp vocabs.symm
      rw [decoded]
      simp only [scores, if_neg skip, Option.bind_some]
      cases read : readEach (mergeEntry blob.bytes) 0 blob.merges.length
          (front ++ blob.scores).length with
      | error message =>
          rw [read] at merges
          rw [Option.map_eq_none_iff.mp merges.symm]
          rfl
      | ok found =>
          rw [read] at merges
          obtain ⟨pairs, split, rfl⟩ := Option.map_eq_some_iff.mp merges.symm
          rw [split]
          rfl

/-- A run of the loader whose blob is this one. -/
structure SptbBlob.LoadedAs (blob : SptbBlob) (t : SpTokenizer) : Prop where
  vocab : t.tok = blob.vocab
  spm : t.family = .spm → blob.typeId = 0
  gpt2Bpe : t.family = .gpt2Bpe → blob.typeId = 2 ∧ t.merge = blob.merges
  gemma4Bpe : t.family = .gemma4Bpe → blob.typeId = 4 ∧ t.g4 = spG4Build t.tok blob.merges

section Loading

variable {buf : FileBuffer}

/-- The blob in memory. -/
def FileBuffer.blob (buf : FileBuffer) : Bytes := buf.slice (0, buf.file.header.blobSize)

/-- What a cursor has passed. -/
structure Took (buf : FileBuffer) (c : Cursor) (taken : Bytes) : Prop where
  pos_le : c.pos ≤ buf.file.header.blobSize
  take_eq : buf.blob.take c.pos = taken

theorem length_slice (span : Nat × Nat) : (buf.slice span).length = span.2 := by
  rw [FileBuffer.slice, List.length_map, List.length_range]

theorem take_blob {first len : Nat} (inside : first + len ≤ buf.file.header.blobSize) :
    buf.blob.take (first + len) = buf.blob.take first ++ buf.slice (first, len) := by
  rw [List.take_add, FileBuffer.blob]
  congr 1
  apply List.ext_getElem
  · rw [List.length_take, List.length_drop, length_slice, length_slice]
    omega
  · intro index _ _
    simp only [FileBuffer.slice, List.getElem_take, List.getElem_drop, List.getElem_map,
      List.getElem_range, Nat.zero_add]

theorem Took.read {c : Cursor} {taken : Bytes} (took : Took buf c taken)
    (spans : List (Nat × Nat)) : Took buf (c.read spans) taken :=
  ⟨took.pos_le, took.take_eq⟩

variable (small : buf.file.header.blobSize < 2 ^ 63)

include small

theorem Took.advance {c moved : Cursor} {taken : Bytes} {len : Nat} (took : Took buf c taken)
    (below : len < 2 ^ 34)
    (step : c.advance (2 ^ 64) buf.file.header.blobSize len = some moved) :
    Took buf moved (taken ++ buf.slice (c.pos, len)) := by
  have start := took.pos_le
  have exact_ : (c.pos + len) % 2 ^ 64 = c.pos + len := Nat.mod_eq_of_lt (by omega)
  unfold Cursor.advance at step
  rw [exact_] at step
  split at step
  next => cases step
  next inside =>
    cases step
    have fits : c.pos + len ≤ buf.file.header.blobSize := Nat.not_lt.mp inside
    exact ⟨fits, by rw [take_blob fits, took.take_eq]⟩

theorem passOver_took {c : Cursor} {taken : Bytes} (took : Took buf c taken) {len : Nat}
    (below : len < 2 ^ 34) :
    Ends (passOver buf len c)
      (fun result => result.1 = (c.pos, len) ∧ Took buf result.2 (taken ++ buf.slice result.1))
      fun _ => True := by
  unfold passOver
  split
  next => trivial
  next moved step => exact ⟨rfl, took.advance small below step⟩

theorem tfU32_took {c : Cursor} {taken : Bytes} (took : Took buf c taken) :
    Ends (tfU32 buf c)
      (fun result => result.1 < 2 ^ 32 ∧ Took buf result.2 (taken ++ toLe 4 result.1))
      fun _ => True := by
  unfold tfU32
  split
  next => trivial
  next moved step =>
    have value := ofLe_lt (buf.slice (c.pos, 4))
    have written := toLe_ofLe (buf.slice (c.pos, 4))
    rw [length_slice] at value written
    refine ⟨value, ?_⟩
    rw [written]
    exact (took.advance small (by decide) step).read _

/-- The strings that a loop has passed. -/
theorem records_took (count : Nat) {c : Cursor} {taken : Bytes} (took : Took buf c taken) :
    Ends (records buf count c)
      (fun result => (result.1.map buf.slice).length = count ∧
        (∀ string ∈ result.1.map buf.slice, string.length < 2 ^ 32) ∧
          Took buf result.2 (taken ++ frames (result.1.map buf.slice)))
      fun _ => True := by
  induction count generalizing c taken with
  | zero =>
      refine ⟨rfl, nofun, ?_⟩
      rw [List.map_nil, frames, List.flatMap_nil, List.append_nil]
      exact took
  | succ count inductionHypothesis =>
      rw [records]
      apply (tfU32_took small took).bind
      rintro ⟨L, c⟩ ⟨below, took⟩
      apply (passOver_took small took (by omega : L < 2 ^ 34)).bind
      rintro ⟨first, c⟩ ⟨rfl, took⟩
      apply (inductionHypothesis took).bind
      rintro ⟨rest, c⟩ ⟨length, fits, took⟩
      refine ⟨?_, ?_, ?_⟩
      · rw [List.map_cons, List.length_cons, length]
      · rw [List.map_cons]
        intro string member
        rcases List.mem_cons.mp member with rfl | later
        · rw [length_slice]
          exact below
        · exact fits string later
      · rw [List.map_cons, frames_cons, lengthFrame, length_slice, ← List.append_assoc,
          ← List.append_assoc]
        exact took

omit small in
theorem familyOf_typeId (typeId : Nat) (c : Cursor) :
    Ends (familyOf typeId c)
      (fun family => (family = .spm ↔ typeId = 0) ∧ (family = .gpt2Bpe ↔ typeId = 2) ∧
        (family = .gemma4Bpe ↔ typeId = 4))
      fun _ => True := by
  unfold familyOf
  split
  case h_4 => trivial
  all_goals simp

theorem loadScores_took {family : TokFamily} {nv : Nat} {tok : Vocab} {c : Cursor} {taken : Bytes}
    (below : nv < 2 ^ 32) (took : Took buf c taken) :
    Ends (loadScores buf family nv tok c)
      (fun result => ∃ scores : Bytes, scores.length = (if family = .spm then nv * 4 else 0) ∧
        Took buf result.2 (taken ++ scores))
      fun _ => True := by
  unfold loadScores
  split
  next =>
    apply (passOver_took small took (by omega : nv * 4 < 2 ^ 34)).bind
    rintro ⟨block, c⟩ ⟨named, took⟩
    subst named
    dsimp only
    split
    next => exact ⟨_, length_slice _, took.read _⟩
    next => trivial
  next =>
    refine ⟨[], rfl, ?_⟩
    rw [List.append_nil]
    exact took

theorem loadMerges_took {family : TokFamily} {nm : Nat} {tok : Vocab} {c : Cursor} {taken : Bytes}
    (took : Took buf c taken) :
    Ends (loadMerges buf family nm tok c)
      (fun result => ∃ lines : List Bytes, lines.length = nm ∧
        (∀ line ∈ lines, line.length < 2 ^ 32) ∧ Took buf result.2 (taken ++ frames lines) ∧
          (family = .gpt2Bpe → result.1.1 = lines) ∧
            (family = .gemma4Bpe → result.1.2 = spG4Build tok lines))
      fun _ => True := by
  unfold loadMerges
  apply (records_took small nm took).bind
  rintro ⟨lines, c⟩ ⟨length, fits, took⟩
  cases family with
  | spm => exact ⟨_, length, fits, took, nofun, nofun⟩
  | gpt2Bpe => exact ⟨_, length, fits, took.read _, fun _ => rfl, nofun⟩
  | gemma4Bpe =>
      dsimp only
      split
      next tables built =>
        exact ⟨_, length, fits, took.read _, nofun, fun _ => built.symm⟩
      next => trivial

/-- What the loader accepts is a blob of the format. -/
theorem loaded_blob {t : SpTokenizer} {c : Cursor}
    (loaded : spTokenizerLoadTokfile buf = .ok (t, c)) :
    ∃ blob : SptbBlob, blob.bytes = buf.blob ∧ blob.LoadedAs t := by
  suffices ends : Ends (spTokenizerLoadTokfile buf)
      (fun result => ∃ blob : SptbBlob, blob.bytes = buf.blob ∧ blob.LoadedAs result.1)
      fun _ => True by
    rw [loaded] at ends
    exact ends
  have start : Took buf ⟨0, []⟩ [] := ⟨Nat.zero_le _, List.take_zero⟩
  unfold spTokenizerLoadTokfile
  apply (@require_ends (fun _ => True) _ _ _ trivial).bind
  intro _ headerOk
  apply (tfU32_took small start).bind
  rintro ⟨magic, c⟩ ⟨_, took⟩
  unfold loadBlob
  apply (@require_ends (fun _ => True) _ _ _ trivial).bind
  intro _ magical
  apply (tfU32_took small took).bind
  rintro ⟨typeId, c⟩ ⟨typeId_lt, took⟩
  apply (tfU32_took small took).bind
  rintro ⟨nv, c⟩ ⟨vocab_lt, took⟩
  apply (tfU32_took small took).bind
  rintro ⟨nm, c⟩ ⟨merges_lt, took⟩
  apply (familyOf_typeId typeId c).bind
  rintro family ⟨spm, gpt2Bpe, gemma4Bpe⟩
  apply (@require_ends (fun _ => True) _ _ _ trivial).bind
  intro _ _
  apply (records_took small nv took).bind
  rintro ⟨tokens, c⟩ ⟨vocab_length, token_lt, took⟩
  apply (loadScores_took small vocab_lt (took.read tokens)).bind
  rintro ⟨⟨_, byteTok⟩, c⟩ ⟨scores, scores_length, took⟩
  apply (loadMerges_took small took).bind
  rintro ⟨⟨merge, g4⟩, c⟩ ⟨lines, lines_length, line_lt, took, merged, built⟩
  apply (@require_ends (fun _ => True) _ _ _ trivial).bind
  intro _ _
  dsimp only at magical vocab_length typeId_lt
  subst magical
  subst vocab_length
  subst lines_length
  let blob : SptbBlob := {
    typeId, typeId_lt, vocab_lt, merges_lt, token_lt, line_lt, scores
    vocab := tokens.map buf.slice
    merges := lines
    rest := buf.blob.drop c.pos
    scores_length := by
      rw [scores_length]
      exact if_congr spm rfl rfl }
  refine ⟨blob, ?_, rfl, spm.mp, ?_, ?_⟩
  · have whole := List.take_append_drop c.pos buf.blob
    rw [took.take_eq] at whole
    exact whole
  · exact fun named => ⟨gpt2Bpe.mp named, merged named⟩
  · exact fun named => ⟨gemma4Bpe.mp named, built named⟩

end Loading

/-! ## The sides of a merge line -/

theorem space_not_mem_utf8 {text : List Char} (none : ' ' ∉ text) : (0x20 : UInt8) ∉ utf8 text := by
  intro member
  obtain ⟨c, inside, encoded⟩ := List.mem_flatMap.mp member
  have same := (utf8EncodeChar_ascii encoded (by decide)).1
  apply none
  rw [Char.toNat_inj.mp (same.symm.trans (by decide : (0x20 : UInt8).toNat = ' '.toNat))] at inside
  exact inside

/-- The bytes of a line that `parse_sptb` splits. -/
theorem readMerge_eq_some {line : Bytes} {left right : List Char}
    (read : readMerge line = some (left, right)) :
    line = utf8 left ++ 0x20 :: utf8 right ∧ ' ' ∉ left := by
  obtain ⟨text, decoded, split⟩ := Option.bind_eq_some_iff.mp read
  unfold splitMerge at split
  split at split
  next held =>
    obtain ⟨rfl, rfl⟩ := Prod.mk.inj (Option.some.inj split)
    have apart : ' ' ∉ text.takeWhile (· ≠ ' ') := by
      intro member
      have other := List.mem_takeWhile_imp member
      exact absurd rfl (of_decide_eq_true other)
    have behind : text.dropWhile (· ≠ ' ') = ' ' :: (text.dropWhile (· ≠ ' ')).tail := by
      cases found : text.dropWhile (· ≠ ' ') with
      | nil =>
          have all := List.dropWhile_eq_nil_iff.mp found ' ' held
          exact absurd rfl (of_decide_eq_true all)
      | cons head rest =>
          have first := List.head?_dropWhile_not (· ≠ ' ') text
          rw [found] at first
          rw [List.tail_cons, not_not.mp (of_decide_eq_false first)]
    have whole := List.takeWhile_append_dropWhile (p := (· ≠ ' ')) (l := text)
    refine ⟨?_, apart⟩
    rw [behind] at whole
    rw [fromUtf8_eq_some_iff.mp decoded]
    conv_lhs => rw [← whole]
    rw [utf8_append, utf8_cons]
    rfl
  next => cases split

/-- Unless a line begins with a space, both readers split it at the same place. -/
theorem mergeSides_eq_readMerge {line left right : Bytes} {pair : MergePair}
    (sides : mergeSides line = some (left, right)) (read : readMerge line = some pair)
    (solid : line.head? ≠ some 0x20) : utf8 pair.1 = left ∧ utf8 pair.2 = right := by
  obtain ⟨first, second⟩ := pair
  obtain ⟨whole, apart⟩ := readMerge_eq_some read
  have absent := space_not_mem_utf8 apart
  dsimp only
  generalize utf8 first = before at whole absent
  generalize utf8 second = behind at whole
  subst whole
  cases before with
  | nil => exact absurd rfl solid
  | cons head rest =>
      have found : (rest ++ 0x20 :: behind).idxOf 0x20 = rest.length := by
        have later : (0x20 : UInt8) ∉ rest := fun member => absent (List.mem_cons_of_mem head member)
        rw [List.idxOf_append_of_notMem later, List.idxOf_cons_self, Nat.add_zero]
      have back : (rest ++ 0x20 :: behind).drop (rest.length + 1) = behind := by
        rw [← List.drop_drop, List.drop_left, List.drop_one, List.tail_cons]
      rw [List.cons_append, mergeSides, found, List.take_left, back] at sides
      split at sides
      next =>
        obtain ⟨rfl, rfl⟩ := Prod.mk.inj (Option.some.inj sides)
        exact ⟨rfl, rfl⟩
      next => cases sides

/-- A line that begins with a space has an empty left side for `parse_sptb`, which the left side of
`sp_g4_build` never is. -/
theorem mergeSides_ne_readMerge {line left right : Bytes} {pair : MergePair}
    (sides : mergeSides line = some (left, right)) (read : readMerge line = some pair)
    (leading : line.head? = some 0x20) : utf8 pair.1 = [] ∧ left ≠ [] := by
  obtain ⟨first, second⟩ := pair
  obtain ⟨whole, apart⟩ := readMerge_eq_some read
  have absent := space_not_mem_utf8 apart
  constructor
  · dsimp only
    cases before : utf8 first with
    | nil => rfl
    | cons head rest =>
        rw [whole, before] at leading
        rw [before, Option.some.inj leading] at absent
        exact absurd List.mem_cons_self absent
  · rintro rfl
    cases line with
    | nil => cases sides
    | cons head tail =>
        rw [mergeSides] at sides
        split at sides
        next => cases (Prod.mk.inj (Option.some.inj sides)).1
        next => cases sides

/-! ## Agreement -/

theorem mapM_isSome_iff {Input Output : Type} {f : Input → Option Output} {inputs : List Input} :
    (inputs.mapM f).isSome = true ↔ ∀ input ∈ inputs, (f input).isSome = true := by
  induction inputs with
  | nil => simp
  | cons head rest inductionHypothesis =>
      rw [List.mapM_cons, List.forall_mem_cons, ← inductionHypothesis]
      cases f head with
      | none => simp
      | some output => cases rest.mapM f <;> simp

theorem length_mapM {Input Output : Type} {f : Input → Option Output} {inputs : List Input}
    {outputs : List Output} (mapped : inputs.mapM f = some outputs) :
    outputs.length = inputs.length := by
  induction inputs generalizing outputs with
  | nil =>
      cases mapped
      rfl
  | cons head rest inductionHypothesis =>
      simp only [List.mapM_cons, Option.bind_eq_bind, Option.bind_eq_some_iff,
        Option.pure_def] at mapped
      obtain ⟨first, -, others, later, same⟩ := mapped
      cases same
      rw [List.length_cons, inductionHypothesis later, List.length_cons]

theorem mapM_fromUtf8 {strings : List Bytes} {texts : List (List Char)}
    (decoded : strings.mapM fromUtf8 = some texts) : texts.map utf8 = strings := by
  induction strings generalizing texts with
  | nil =>
      cases decoded
      rfl
  | cons head rest inductionHypothesis =>
      simp only [List.mapM_cons, Option.bind_eq_bind, Option.bind_eq_some_iff,
        Option.pure_def] at decoded
      obtain ⟨first, here, others, later, same⟩ := decoded
      cases same
      rw [List.map_cons, inductionHypothesis later, ← fromUtf8_eq_some_iff.mp here]

theorem readMerge_isSome_iff {line : Bytes} :
    (readMerge line).isSome = true ↔ ∃ text, fromUtf8 line = some text ∧ ' ' ∈ text := by
  rw [readMerge, Option.isSome_bind]
  cases fromUtf8 line with
  | none => simp
  | some text => simp [splitMerge]

/-- On every blob that the loader accepts, `parse_sptb` accepts where every string is UTF-8 and every
merge line has a space, and then hands out the same tokens and, unless a line begins with a space,
the same sides. -/
theorem parseSptb_of_loaded {buf : FileBuffer} (small : buf.file.header.blobSize < 2 ^ 63)
    {t : SpTokenizer} {c : Cursor} (loaded : spTokenizerLoadTokfile buf = .ok (t, c)) :
    ∃ blob : SptbBlob, blob.bytes = buf.blob ∧ blob.LoadedAs t ∧
      ((∃ data, parseSptb buf.blob = .ok data) ↔
        (∀ token ∈ t.tok, ∃ text, fromUtf8 token = some text) ∧
          ∀ line ∈ blob.merges, ∃ text, fromUtf8 line = some text ∧ ' ' ∈ text) ∧
      ∀ data, parseSptb buf.blob = .ok data →
        data.typeId = blob.typeId ∧ data.vocab.map utf8 = t.tok ∧
          data.merges.length = blob.merges.length ∧
          ∀ (index : Nat) (line left right : Bytes), blob.merges[index]? = some line →
            mergeSides line = some (left, right) → line.head? ≠ some 0x20 →
              ∃ pair, data.merges[index]? = some pair ∧ utf8 pair.1 = left ∧
                utf8 pair.2 = right := by
  obtain ⟨blob, same, carried⟩ := loaded_blob small loaded
  refine ⟨blob, same, carried, ?_, ?_⟩
  · have accepted : (∃ data, parseSptb buf.blob = .ok data) ↔
        (parseSptb blob.bytes).toOption.isSome = true := by
      rw [same]
      cases parseSptb buf.blob with
      | error message => simp [Except.toOption]
      | ok data => simp [Except.toOption]
    have both : (parseSptb blob.bytes).toOption.isSome = true ↔
        (blob.vocab.mapM fromUtf8).isSome = true ∧ (blob.merges.mapM readMerge).isSome = true := by
      rw [parseSptb_bytes]
      cases blob.vocab.mapM fromUtf8 with
      | none => simp
      | some vocab => simp
    rw [accepted, both, mapM_isSome_iff, mapM_isSome_iff, carried.vocab]
    simp only [Option.isSome_iff_exists, ← readMerge_isSome_iff]
  · intro data parsed
    have read := parseSptb_bytes blob
    rw [same, parsed] at read
    obtain ⟨vocab, decoded, rest⟩ := Option.bind_eq_some_iff.mp read.symm
    obtain ⟨merges, split, rfl⟩ := Option.map_eq_some_iff.mp rest
    refine ⟨rfl, ?_, ?_, ?_⟩
    · rw [carried.vocab]
      exact mapM_fromUtf8 decoded
    · exact (length_mapM split)
    · intro index line left right present sides solid
      obtain ⟨pair, found, readLine⟩ := mapM_getElem split present
      exact ⟨pair, found, mergeSides_eq_readMerge sides readLine solid⟩

/-- A file with a blob of the GPT2 lane. -/
def gpt2File (tokens : List Bytes) (merges : List Bytes) : Bytes :=
  let blob := toLe 4 0x42545053 ++ toLe 4 2 ++ toLe 4 tokens.length ++ toLe 4 merges.length ++
    frames tokens ++ frames merges
  toLe 4 0x4B545053 ++ toLe 4 0 ++ toLe 4 128 ++ toLe 4 2 ++ toLe 4 tokens.length ++
    (List.replicate 4 (toLe 4 0xFFFFFFFF)).flatten ++ toLe 8 128 ++ toLe 8 blob.length ++
      List.replicate 76 0 ++ blob

/-- The tokens `a`, `b` and `ab` and the merge line `a b`. -/
def mergedFile : TokFile where
  bytes := gpt2File [[0x61], [0x62], [0x61, 0x62]] [[0x61, 0x20, 0x62]]
  fits := by decide +kernel

theorem parseSptb_of_loaded_merged :
    ∃ data, parseSptb (FileBuffer.blob ⟨mergedFile, fun _ => 0⟩) = .ok data ∧
      data.vocab.map utf8 = [[0x61], [0x62], [0x61, 0x62]] ∧
        ∃ pair, data.merges[0]? = some pair ∧ utf8 pair.1 = [0x61] ∧ utf8 pair.2 = [0x62] := by
  have loads : (spTokenizerLoadTokfile ⟨mergedFile, fun _ => 0⟩).toOption.map
      (fun loaded => (loaded.1.tok, loaded.1.family, loaded.1.merge)) =
        some ([[0x61], [0x62], [0x61, 0x62]], .gpt2Bpe, [[0x61, 0x20, 0x62]]) := by decide +kernel
  cases loaded : spTokenizerLoadTokfile ⟨mergedFile, fun _ => 0⟩ with
  | error c =>
      rw [loaded] at loads
      cases loads
  | ok loadedPair =>
      obtain ⟨t, c⟩ := loadedPair
      rw [loaded] at loads
      obtain ⟨tok, family, merge⟩ : t.tok = [[0x61], [0x62], [0x61, 0x62]] ∧ t.family = .gpt2Bpe ∧
          t.merge = [[0x61, 0x20, 0x62]] := by
        simpa [Except.toOption] using loads
      obtain ⟨blob, _, carried, accepts, agree⟩ :=
        parseSptb_of_loaded (by decide +kernel) loaded
      have lines : blob.merges = [[0x61, 0x20, 0x62]] := (carried.gpt2Bpe family).2.symm.trans merge
      rw [tok, lines] at accepts
      obtain ⟨data, parsed⟩ := accepts.mpr (by
        simp only [← Option.isSome_iff_exists, ← readMerge_isSome_iff]
        decide)
      obtain ⟨_, vocab, _, sides⟩ := agree data parsed
      refine ⟨data, parsed, vocab.trans tok, ?_⟩
      exact sides 0 [0x61, 0x20, 0x62] [0x61] [0x62] (by rw [lines]; rfl) (by decide) (by decide)

/-- A token that is not UTF-8. -/
def nonUtf8File : TokFile where
  bytes := gpt2File [[0xFF]] []
  fits := by decide +kernel

/-- A merge line without a space. -/
def inertFile : TokFile where
  bytes := gpt2File [[0x61]] [[0x61, 0x62]]
  fits := by decide +kernel

/-- A merge line whose left side is a space. -/
def leadingFile : TokFile where
  bytes := gpt2File [[0x61]] [[0x20, 0x20, 0x61]]
  fits := by decide +kernel

theorem readers_differ :
    ((spTokenizerLoadTokfile ⟨nonUtf8File, fun _ => 0⟩).toOption.isSome = true ∧
      (parseSptb (FileBuffer.blob ⟨nonUtf8File, fun _ => 0⟩)).toOption = none) ∧
    ((spTokenizerLoadTokfile ⟨inertFile, fun _ => 0⟩).toOption.isSome = true ∧
      (parseSptb (FileBuffer.blob ⟨inertFile, fun _ => 0⟩)).toOption = none) ∧
    (spTokenizerLoadTokfile ⟨leadingFile, fun _ => 0⟩).toOption.isSome = true ∧
      mergeSides [0x20, 0x20, 0x61] = some ([0x20], [0x61]) ∧
      (parseSptb (FileBuffer.blob ⟨leadingFile, fun _ => 0⟩)).toOption.map SptbData.merges =
        some [([], [' ', 'a'])] := by
  decide +kernel

end KairosEngine.Tokenizer
