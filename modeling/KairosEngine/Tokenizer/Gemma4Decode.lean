import KairosEngine.Tokenizer.ChatTemplate

/-!
# `sp_g4_decode`

Control tokens are skipped, a byte token is its byte, and in every other token U+2581 is a space.
On the ids of a text this undoes the escaping, the cutting into pieces, the merges and the byte
fallback, unless a byte that the text falls back to is itself a control token.
-/

namespace KairosEngine.Tokenizer

open KairosEngine.Library

/-! ## The decoder -/

/-- The control ids of a tokenizer; the loaders refuse one without a `bos_id`. -/
structure ControlIds where
  bos : Nat
  eos : Option Nat
  pad : Option Nat
  unk : Option Nat

def ControlIds.skips (controls : ControlIds) (id : Nat) : Bool :=
  decide (id = controls.bos) || decide (some id = controls.eos) ||
    decide (some id = controls.pad) || decide (some id = controls.unk)

/-- `g4_hex`. -/
def g4Hex (c : UInt8) : Option Nat :=
  if 0x30 ≤ c ∧ c ≤ 0x39 then some (c.toNat - 0x30)
  else if 0x41 ≤ c ∧ c ≤ 0x46 then some (c.toNat - 0x41 + 10)
  else if 0x61 ≤ c ∧ c ≤ 0x66 then some (c.toNat - 0x61 + 10)
  else none

/-- The byte of a token of the shape `<0xHH>`. -/
def byteToken : Bytes → Option UInt8
  | [opening, zero, x, high, low, closing] =>
      if opening = 0x3C ∧ zero = 0x30 ∧ x = 0x78 ∧ closing = 0x3E then do
        let hi ← g4Hex high
        let lo ← g4Hex low
        return UInt8.ofNat (hi * 16 + lo)
      else none
  | _ => none

/-- U+2581 becomes a space, wherever its three bytes stand. -/
def unescapeSpaces : Bytes → Bytes
  | first :: second :: third :: rest =>
      if first = 0xE2 ∧ second = 0x96 ∧ third = 0x81 then 0x20 :: unescapeSpaces rest
      else first :: unescapeSpaces (second :: third :: rest)
  | short => short

section Decoding

variable (vocab : Vocab) (controls : ControlIds)

/-- The bytes of one id. -/
def g4TokenBytes (id : Nat) : Bytes :=
  match vocab[id]? with
  | none => []
  | some surface =>
      if controls.skips id then []
      else
        match byteToken surface with
        | some byte => [byte]
        | none => unescapeSpaces surface

/-- `sp_g4_decode`, into a buffer that holds the text. -/
def spG4Decode (ids : List Nat) : Bytes := ids.flatMap (g4TokenBytes vocab controls)

end Decoding

variable {vocab : Vocab} {merges : List Bytes} {tables : MergeTables} {controls : ControlIds}

theorem spG4Decode_cons (id : Nat) (ids : List Nat) :
    spG4Decode vocab controls (id :: ids) =
      g4TokenBytes vocab controls id ++ spG4Decode vocab controls ids :=
  List.flatMap_cons

theorem spG4Decode_singleton (id : Nat) :
    spG4Decode vocab controls [id] = g4TokenBytes vocab controls id :=
  List.flatMap_singleton _ _

theorem spG4Decode_flatMap {Part : Type} (ids : Part → List Nat) (parts : List Part) :
    spG4Decode vocab controls (parts.flatMap ids) =
      parts.flatMap fun part => spG4Decode vocab controls (ids part) :=
  List.flatMap_assoc

theorem g4TokenBytes_bos : g4TokenBytes vocab controls controls.bos = [] := by
  unfold g4TokenBytes ControlIds.skips
  split
  next => rfl
  next => simp

theorem g4Hex_hexUpper {nibble : Nat} (below : nibble < 16) : g4Hex (hexUpper nibble) = some nibble := by
  revert nibble
  decide

/-- A byte surface is read back as its byte. -/
theorem byteToken_byteSurface (byte : UInt8) : byteToken (byteSurface byte.toNat) = some byte := by
  have below := byte.toNat_lt
  have whole : byte.toNat / 16 * 16 + byte.toNat % 16 = byte.toNat := Nat.div_add_mod' _ _
  have high : g4Hex (hexUpper (byte.toNat / 16)) = some (byte.toNat / 16) := g4Hex_hexUpper (by omega)
  have low : g4Hex (hexUpper (byte.toNat % 16)) = some (byte.toNat % 16) := g4Hex_hexUpper (by omega)
  rw [byteSurface, byteToken, if_pos (by decide), high, low]
  simp only [Option.bind_eq_bind, Option.bind_some, Option.pure_def, whole, UInt8.ofNat_toNat]

/-! ## Characters and bytes -/

/-- A space is escaped as U+2581. -/
def escapeSpace (c : Char) : Char := if c = ' ' then '▁' else c

theorem utf8EncodeChar_eq_ascii {c ascii : Char} {byte : UInt8} (small : byte.toNat < 0x80)
    (named : byte.toNat = ascii.toNat) (member : byte ∈ String.utf8EncodeChar c) : c = ascii :=
  Char.toNat_inj.mp ((utf8EncodeChar_ascii member small).1.symm.trans named)

theorem escapeSpaces_utf8 (text : Text) :
    escapeSpaces (utf8 text) = utf8 (text.map escapeSpace) := by
  induction text with
  | nil => rfl
  | cons c text inductionHypothesis =>
      rw [List.map_cons, utf8_cons, utf8_cons, ← inductionHypothesis, escapeSpaces, escapeSpaces,
        List.flatMap_append]
      congr 1
      by_cases space : c = ' '
      · subst space
        rfl
      · rw [escapeSpace, if_neg space]
        have kept : ∀ byte ∈ String.utf8EncodeChar c,
            (if byte = 0x20 then [0xE2, 0x96, 0x81] else [byte]) = [byte] := by
          intro byte member
          apply if_neg
          rintro rfl
          exact space (utf8EncodeChar_eq_ascii (by decide) (by decide) member)
        rw [List.flatMap_congr kept, List.flatMap_singleton']

theorem g4Utf8Len_lead {lead : UInt8} (valid : lead.toNat < 0x80 ∨ 0xC0 ≤ lead.toNat) :
    g4Utf8Len lead = tailLength lead + 1 := by
  have lengths : ∀ value < 256, value < 0x80 ∨ 0xC0 ≤ value →
      [1, 1, 1, 1, 1, 1, 1, 1, 1, 1, 1, 1, 2, 2, 3, 4].getD (value / 16) 1 =
        (if value < 0x80 then 0 else if value < 0xE0 then 1 else if value < 0xF0 then 2 else 3)
          + 1 := by
    decide +kernel
  exact lengths lead.toNat lead.toNat_lt valid

/-- The lead byte says how long a character is. -/
theorem utf8Chunks_utf8 (text : Text) :
    utf8Chunks (utf8 text) = text.map fun c => utf8 [c] := by
  induction text with
  | nil => rw [utf8, List.flatMap_nil, utf8Chunks, List.map_nil]
  | cons c text inductionHypothesis =>
      obtain ⟨lead, tail, bytes, length, _, named⟩ := utf8EncodeChar_lead c
      have whole : g4Utf8Len lead = (lead :: tail).length := by
        rw [g4Utf8Len_lead (by omega), List.length_cons, length]
      rw [List.map_cons, utf8_cons, utf8_cons, bytes, List.cons_append, utf8Chunks,
        ← List.cons_append, whole, List.take_left, List.drop_left, inductionHypothesis, utf8,
        List.flatMap_nil, List.append_nil]

theorem unescapeSpaces_nil : unescapeSpaces [] = [] := rfl

theorem unescapeSpaces_cons {byte : UInt8} {rest : Bytes}
    (other : ¬ [0xE2, 0x96, 0x81] <+: byte :: rest) :
    unescapeSpaces (byte :: rest) = byte :: unescapeSpaces rest := by
  match rest with
  | [] => rfl
  | [_] => rfl
  | second :: third :: rest =>
      rw [unescapeSpaces, if_neg]
      rintro ⟨rfl, rfl, rfl⟩
      exact other ⟨rest, rfl⟩

/-- Continuation bytes are kept. -/
theorem unescapeSpaces_continued {tail : Bytes} (rest : Bytes)
    (continued : ∀ byte ∈ tail, byte.toNat < 0xC0) :
    unescapeSpaces (tail ++ rest) = tail ++ unescapeSpaces rest := by
  induction tail with
  | nil => rfl
  | cons byte tail inductionHypothesis =>
      have small := continued byte List.mem_cons_self
      rw [List.cons_append, unescapeSpaces_cons,
        inductionHypothesis fun other member => continued other (List.mem_cons_of_mem _ member),
        List.cons_append]
      rintro ⟨behind, same⟩
      rw [← (List.cons.inj same).1] at small
      exact absurd small (by decide)

/-- Over whole characters the bytes are unescaped one character at a time. -/
theorem unescapeSpaces_utf8_append (text : Text) (rest : Bytes) :
    unescapeSpaces (utf8 text ++ rest) = utf8 (text.map unescapeSpace) ++ unescapeSpaces rest := by
  induction text with
  | nil => rfl
  | cons c text inductionHypothesis =>
      rw [List.map_cons, utf8_cons, utf8_cons, List.append_assoc, List.append_assoc,
        ← inductionHypothesis]
      by_cases mark : c = '▁'
      · subst mark
        rfl
      · obtain ⟨lead, tail, bytes, _, continued, _⟩ := utf8EncodeChar_lead c
        rw [unescapeSpace, if_neg mark, bytes, List.cons_append, unescapeSpaces_cons,
          unescapeSpaces_continued _ fun byte member => (continued byte member).2, List.cons_append]
        rintro ⟨behind, same⟩
        rw [← List.cons_append, ← bytes] at same
        exact mark (@utf8EncodeChar_unique '▁' c behind _ same).symm

theorem unescapeSpaces_utf8 (text : Text) :
    unescapeSpaces (utf8 text) = utf8 (text.map unescapeSpace) := by
  have whole := unescapeSpaces_utf8_append text []
  rwa [List.append_nil, unescapeSpaces_nil, List.append_nil] at whole

/-- Cut between characters, the parts can be unescaped by themselves. -/
theorem flatMap_unescapeSpaces {parts : List Bytes} (whole : ∀ part ∈ parts, ∃ text, part = utf8 text) :
    parts.flatMap unescapeSpaces = unescapeSpaces parts.flatten := by
  induction parts with
  | nil => rfl
  | cons part parts inductionHypothesis =>
      obtain ⟨text, rfl⟩ := whole part List.mem_cons_self
      rw [List.flatMap_cons, List.flatten_cons, unescapeSpaces_utf8_append, unescapeSpaces_utf8,
        inductionHypothesis fun other member => whole other (List.mem_cons_of_mem _ member)]

/-! ## Newline runs of a text -/

theorem beq_newline {c : Char} {byte : UInt8} (member : byte ∈ String.utf8EncodeChar c) :
    (byte == newline) = (c == '\n') := by
  rw [Bool.eq_iff_iff, beq_iff_eq, beq_iff_eq]
  constructor
  · rintro rfl
    exact utf8EncodeChar_eq_ascii (by decide) (by decide) member
  · rintro rfl
    exact List.mem_singleton.mp member

theorem utf8_eq_nil {text : Text} : utf8 text = [] ↔ text = [] :=
  utf8_injective.eq_iff' rfl

theorem head_utf8 {text : Text} (nonempty : text ≠ []) (bytes : utf8 text ≠ []) :
    (utf8 text).head bytes ∈ String.utf8EncodeChar (text.head nonempty) := by
  cases text with
  | nil => exact absurd rfl nonempty
  | cons c rest =>
      simp only [utf8_cons, List.head_cons]
      rw [List.head_append_of_ne_nil String.utf8EncodeChar_ne_nil]
      exact List.head_mem _

theorem getLast_utf8 {text : Text} (nonempty : text ≠ []) (bytes : utf8 text ≠ []) :
    (utf8 text).getLast bytes ∈ String.utf8EncodeChar (text.getLast nonempty) := by
  induction text using List.reverseRecOn with
  | nil => exact absurd rfl nonempty
  | append_singleton front c _ =>
      simp only [utf8_append, utf8_cons, List.getLast_append_singleton]
      have last : utf8 [] = [] := rfl
      simp only [last, List.append_nil]
      rw [List.getLast_append_of_ne_nil _ String.utf8EncodeChar_ne_nil]
      exact List.getLast_mem _

/-- Cutting a text at its newlines cuts its bytes at theirs. -/
theorem newlineRuns_utf8 (text : Text) :
    newlineRuns (utf8 text) =
      (text.splitBy fun first second => (first == '\n') == (second == '\n')).map utf8 := by
  rw [newlineRuns, List.splitBy_eq_iff]
  refine ⟨?_, ?_, ?_, ?_⟩
  · rw [← utf8_flatten, List.flatten_splitBy]
  · rw [List.mem_map]
    rintro ⟨run, inside, empty⟩
    exact List.ne_nil_of_mem_splitBy inside (utf8_eq_nil.mp empty)
  · intro piece member
    obtain ⟨run, inside, rfl⟩ := List.mem_map.mp member
    have alike : run.Pairwise fun first second => (first == '\n') = (second == '\n') := by
      have chained := List.isChain_of_mem_splitBy inside
      simp only [beq_iff_eq] at chained
      have transitive : Trans (fun first second : Char => (first == '\n') = (second == '\n'))
          (fun first second => (first == '\n') = (second == '\n'))
          (fun first second => (first == '\n') = (second == '\n')) := ⟨Eq.trans⟩
      exact chained.pairwise
    apply List.Pairwise.isChain
    rw [utf8, List.pairwise_flatMap]
    constructor
    · intro c _
      apply List.pairwise_of_forall_mem_list
      intro left inLeft right inRight
      rw [beq_newline inLeft, beq_newline inRight, beq_self_eq_true]
    · apply alike.imp
      intro first second same left inFirst right inSecond
      rw [beq_newline inFirst, beq_newline inSecond, same, beq_self_eq_true]
  · apply (List.isChain_map _).mpr
    apply (List.isChain_getLast_head_splitBy _ text).imp
    rintro left right ⟨leftFull, rightFull, unlike⟩
    have leftBytes : utf8 left ≠ [] := mt utf8_eq_nil.mp leftFull
    have rightBytes : utf8 right ≠ [] := mt utf8_eq_nil.mp rightFull
    refine ⟨leftBytes, rightBytes, ?_⟩
    rw [beq_newline (getLast_utf8 leftFull leftBytes), beq_newline (head_utf8 rightFull rightBytes)]
    exact unlike

/-! ## Decoding what was encoded -/

/-- What a text can come to by a character, a run of newlines or a merge. -/
inductive Reached (vocab : Vocab) (tables : MergeTables) (id : Nat) : Prop
  | character (c : Char) (found : vocabLookup vocab (utf8 [c]) = some id)
  | newlines (count : Nat) (found : vocabLookup vocab (List.replicate count newline) = some id)
  | merged (result : some id ∈ tables.result)

/-- U+2581 is a token, and no token that is reached is a control token or looks like a byte. -/
structure PlainTokens (vocab : Vocab) (tables : MergeTables) (controls : ControlIds) : Prop where
  spaced : (vocabLookup vocab (utf8 ['▁'])).isSome = true
  shown : ∀ id, Reached vocab tables id → controls.skips id = false
  textual : ∀ id surface, Reached vocab tables id → vocab[id]? = some surface →
    byteToken surface = none

/-- No byte token is a control token. -/
def BytesShown (vocab : Vocab) (controls : ControlIds) : Prop :=
  ∀ byte < 256, ∀ id, vocabLookup vocab (byteSurface byte) = some id → controls.skips id = false

theorem PlainTokens.tokenBytes (plain : PlainTokens vocab tables controls) {surface : Bytes}
    {id : Nat} (reached : Reached vocab tables id) (found : vocabLookup vocab surface = some id) :
    g4TokenBytes vocab controls id = unescapeSpaces surface := by
  have named := vocabLookup_getElem found
  unfold g4TokenBytes
  rw [named]
  simp only
  rw [plain.shown id reached, if_neg Bool.false_ne_true, plain.textual id surface reached named]

theorem BytesShown.tokenBytes (shown : BytesShown vocab controls)
    (built : spG4Build vocab merges = some tables) (byte : UInt8) :
    g4TokenBytes vocab controls (tables.byteTok.getD byte.toNat 0) = [byte] := by
  obtain ⟨id, stored, found⟩ := byteTok_of_build built byte.toNat_lt
  rw [List.getD_eq_getElem?_getD, stored, Option.getD_some]
  unfold g4TokenBytes
  rw [vocabLookup_getElem found]
  simp only
  rw [shown byte.toNat byte.toNat_lt id found, if_neg Bool.false_ne_true, byteToken_byteSurface]

/-- A symbol of the plain algorithm: whole characters, and more than one only by a merge. -/
structure Symbol (merges : List Bytes) (symbol : Bytes) : Prop where
  whole : ∃ text, symbol = utf8 text
  origin : (∃ c, symbol = utf8 [c]) ∨
    ∃ left right rank, mergeRank merges left right = some rank ∧ symbol = left ++ right

theorem Symbol.character (c : Char) : Symbol merges (utf8 [c]) := ⟨⟨[c], rfl⟩, .inl ⟨c, rfl⟩⟩

theorem Symbol.merged {left right : Bytes} {rank : Nat} (leftSymbol : Symbol merges left)
    (rightSymbol : Symbol merges right) (ranked : mergeRank merges left right = some rank) :
    Symbol merges (left ++ right) := by
  obtain ⟨first, rfl⟩ := leftSymbol.whole
  obtain ⟨second, rfl⟩ := rightSymbol.whole
  exact ⟨⟨first ++ second, (utf8_append first second).symm⟩, .inr ⟨_, _, rank, ranked, rfl⟩⟩

theorem symbols_mergeAll (text : Text) :
    ∀ symbol ∈ mergeAll (mergeRank merges) (utf8Chunks (utf8 text)), Symbol merges symbol := by
  apply mergeAll_forall
  · intro chunk member
    rw [utf8Chunks_utf8] at member
    obtain ⟨c, _, rfl⟩ := List.mem_map.mp member
    exact Symbol.character c
  · intro left right rank leftSymbol rightSymbol ranked
    exact leftSymbol.merged rightSymbol ranked

theorem Symbol.reached {symbol : Bytes} (known : Symbol merges symbol)
    (built : spG4Build vocab merges = some tables) {id : Nat}
    (found : vocabLookup vocab symbol = some id) : Reached vocab tables id := by
  rcases known.origin with ⟨c, rfl⟩ | ⟨left, right, rank, ranked, rfl⟩
  · exact .character c found
  · obtain ⟨_, _, result, lookup, stored⟩ := (accepted_of_build built).resolved ranked
    rw [found, Option.some.injEq] at lookup
    exact .merged (List.mem_of_getElem? (lookup ▸ stored))

/-- Merges result in tokens, so what is not a token is a character. -/
theorem Symbol.unlisted {symbol : Bytes} (known : Symbol merges symbol)
    (built : spG4Build vocab merges = some tables) (missing : vocabLookup vocab symbol = none) :
    ∃ c, symbol = utf8 [c] := by
  rcases known.origin with character | ⟨left, right, rank, ranked, rfl⟩
  · exact character
  · obtain ⟨_, _, result, lookup, _⟩ := (accepted_of_build built).resolved ranked
    rw [missing] at lookup
    cases lookup

theorem reached_newlines {piece : Bytes} (run : ∀ byte ∈ piece, byte = newline) {id : Nat}
    (found : vocabLookup vocab piece = some id) : Reached vocab tables id :=
  .newlines _ (List.eq_replicate_of_mem run ▸ found)

/-- A run of newlines that is a token is that token. -/
theorem g4Piece_newlines {piece : Bytes} {isNlRun : Bool} {id : Nat} (newlines : isNlRun = true)
    (found : vocabLookup vocab piece = some id) : g4Piece vocab tables piece isNlRun = [id] := by
  unfold g4Piece
  rw [if_pos newlines, found]

section RoundTrip

variable (built : spG4Build vocab merges = some tables)
  (plain : PlainTokens vocab tables controls) (shown : BytesShown vocab controls)

include built plain shown

/-- A symbol decodes to its own text: it is a token that is reached, or a character that is not a
token, by its bytes. -/
theorem Symbol.decode {symbol : Bytes} (known : Symbol merges symbol) :
    spG4Decode vocab controls (emitText vocab tables symbol) = unescapeSpaces symbol := by
  unfold emitText
  cases found : vocabLookup vocab symbol with
  | some id => rw [spG4Decode_singleton, plain.tokenBytes (known.reached built found) found]
  | none =>
      obtain ⟨c, rfl⟩ := known.unlisted built found
      have other : c ≠ '▁' := by
        rintro rfl
        have spaced := plain.spaced
        rw [found] at spaced
        cases spaced
      have bytes : ∀ byte ∈ utf8 [c],
          g4TokenBytes vocab controls (tables.byteTok.getD byte.toNat 0) = [byte] :=
        fun byte _ => shown.tokenBytes built byte
      rw [unescapeSpaces_utf8, List.map_singleton, unescapeSpace, if_neg other, spG4Decode,
        List.flatMap_map, List.flatMap_congr bytes, List.flatMap_singleton']

theorem decode_plainPiece (text : Text) :
    spG4Decode vocab controls (plainPiece vocab merges tables (utf8 text)) =
      unescapeSpaces (utf8 text) := by
  have symbols := @symbols_mergeAll merges text
  rw [plainPiece, spG4Decode_flatMap,
    List.flatMap_congr fun symbol member => (symbols symbol member).decode built plain shown,
    flatMap_unescapeSpaces fun symbol member => (symbols symbol member).whole, flatten_mergeAll,
    utf8Chunks_flatten]

theorem decode_g4Piece {text : Text} {isNlRun : Bool}
    (run : isNlRun = true → ∀ byte ∈ utf8 text, byte = newline) :
    spG4Decode vocab controls (g4Piece vocab tables (utf8 text) isNlRun) =
      unescapeSpaces (utf8 text) := by
  cases shortcut : (if isNlRun then vocabLookup vocab (utf8 text) else none) with
  | some id =>
      split at shortcut
      next newlines =>
        rw [g4Piece_newlines newlines shortcut, spG4Decode_singleton,
          plain.tokenBytes (reached_newlines (run newlines) shortcut) shortcut]
      next => cases shortcut
  | none =>
      rw [g4Piece_eq_plain built, decode_plainPiece built plain shown]
      intro newlines
      rwa [if_pos newlines] at shortcut

theorem decode_g4Fragment (text : Text) :
    spG4Decode vocab controls (g4Fragment vocab tables (utf8 text)) =
      utf8 ((text.map escapeSpace).map unescapeSpace) := by
  have runs := newlineRuns_utf8 (text.map escapeSpace)
  have whole : ∀ piece ∈ newlineRuns (utf8 (text.map escapeSpace)), ∃ run, piece = utf8 run := by
    intro piece member
    rw [runs] at member
    obtain ⟨run, _, rfl⟩ := List.mem_map.mp member
    exact ⟨run, rfl⟩
  have pieces : ∀ piece ∈ newlineRuns (utf8 (text.map escapeSpace)),
      spG4Decode vocab controls (g4Piece vocab tables piece (piece.head? == some newline)) =
        unescapeSpaces piece := by
    intro piece member
    obtain ⟨run, rfl⟩ := whole piece member
    exact decode_g4Piece built plain shown (OutOfReach.newlineRuns_run member)
  rw [g4Fragment, escapeSpaces_utf8, spG4Decode_flatMap, List.flatMap_congr pieces,
    flatMap_unescapeSpaces whole, newlineRuns, List.flatten_splitBy, unescapeSpaces_utf8]

end RoundTrip

theorem unescapeSpace_escapeSpace {c : Char} (other : c ≠ '▁') :
    unescapeSpace (escapeSpace c) = c := by
  unfold escapeSpace
  split
  next space => rw [space, unescapeSpace, if_pos rfl]
  next => rw [unescapeSpace, if_neg other]

/-- Decoding the ids of a text gives the text back. -/
theorem spG4Decode_spG4Encode (built : spG4Build vocab merges = some tables)
    (plain : PlainTokens vocab tables controls) (shown : BytesShown vocab controls) {text : Text}
    (unmarked : '▁' ∉ text) :
    spG4Decode vocab controls (spG4Encode vocab tables [] controls.bos (utf8 text)) = utf8 text := by
  have back : ∀ c ∈ text, (unescapeSpace ∘ escapeSpace) c = id c := by
    rintro c member
    exact unescapeSpace_escapeSpace fun mark => unmarked (mark ▸ member)
  have same : (text.map escapeSpace).map unescapeSpace = text := by
    rw [List.map_map, List.map_congr_left back, List.map_id]
  rw [spG4Encode, spG4Decode_cons, g4TokenBytes_bos, List.nil_append,
    specialScan_nil _ _ _ le_rfl, List.nil_append, decode_g4Fragment built plain shown, same]

/-- `<bos>`, U+2581, the letters `a`, `b`, the tokens `aa`, `ab` and the byte tokens. -/
def spacedVocab : Vocab :=
  withBytes [utf8 "<bos>".toList, utf8 ['▁'], [0x61], [0x62], [0x61, 0x61], [0x61, 0x62]]

def spacedTables : MergeTables where
  pairs := [((2, 3), 0), ((2, 2), 1)]
  result := [some 5, some 4]
  byteTok := List.range' 6 256

theorem spacedVocab_built : spG4Build spacedVocab letterMerges = some spacedTables := by
  have lines : letterMerges.mapM (resolveMerge spacedVocab) =
      some [some ((2, 3), 5), some ((2, 2), 4)] := by
    rfl
  rw [spG4Build, lines, spacedVocab, mapM_byteSurface (by decide) le_rfl]
  rfl

/-- Text reaches the five tokens behind `<bos>`. -/
theorem spacedVocab_reached {id : Nat} (reached : Reached spacedVocab spacedTables id) :
    0 < id ∧ id < 6 := by
  have surfaces : ∀ surface, spacedVocab[id]? = some surface → surface.head? ≠ some 0x3C →
      0 < id ∧ id < 6 := by
    intro surface named plain
    rcases getElem?_withBytes named with ⟨early, front⟩ | ⟨_, byte, _, rfl⟩
    · refine ⟨Nat.pos_of_ne_zero ?_, early⟩
      rintro rfl
      cases front
      exact plain rfl
    · exact absurd rfl plain
  cases reached with
  | character c found =>
      by_cases angle : c = '<'
      · subst angle
        have missing : vocabLookup spacedVocab (utf8 ['<']) = none := by decide +kernel
        rw [missing] at found
        cases found
      · apply surfaces _ (vocabLookup_getElem found)
        intro begins
        have member := List.mem_of_mem_head? begins
        rw [utf8_singleton] at member
        exact angle (utf8EncodeChar_eq_ascii (by decide) (by decide) member)
  | newlines count found =>
      apply surfaces _ (vocabLookup_getElem found)
      cases count with
      | zero => nofun
      | succ count => simp [List.replicate_succ, newline]
  | merged result =>
      have results : id = 5 ∨ id = 4 := by simpa [spacedTables] using result
      omega

theorem spacedVocab_plain {controls : ControlIds}
    (apart : ∀ id, controls.skips id = true → id = 0 ∨ 6 ≤ id) :
    PlainTokens spacedVocab spacedTables controls := by
  refine ⟨rfl, ?_, ?_⟩
  · intro id reached
    have inside := spacedVocab_reached reached
    rw [← Bool.not_eq_true]
    intro skipped
    have outside := apart id skipped
    omega
  · intro id surface reached named
    have inside := spacedVocab_reached reached
    rcases getElem?_withBytes named with ⟨_, front⟩ | ⟨late, _⟩
    · have texts : ∀ token ∈ [utf8 "<bos>".toList, utf8 ['▁'], [0x61], [0x62], [0x61, 0x61],
          [0x61, 0x62]], byteToken token = none := by
        decide
      exact texts surface (List.mem_of_getElem? front)
    · exact absurd inside.2 (not_lt.mpr late)

/-- `a bc`, a newline and `é`: a space, a merge and three bytes. -/
theorem spG4Decode_spG4Encode_letters :
    spG4Decode spacedVocab ⟨0, none, none, none⟩
        (spG4Encode spacedVocab spacedTables [] 0 (utf8 "a bc\né".toList)) =
      utf8 "a bc\né".toList :=
  @spG4Decode_spG4Encode spacedVocab letterMerges spacedTables ⟨0, none, none, none⟩
    spacedVocab_built
    (spacedVocab_plain fun id skipped => .inl (by simpa [ControlIds.skips] using skipped))
    (fun byte below id found => by
      rw [spacedVocab, vocabLookup_withBytes (by decide) below, Option.some.injEq] at found
      subst found
      simp [ControlIds.skips])
    _ (by decide)

/-- With the token of the byte `c` as its padding, a tokenizer loses every `c`. -/
theorem spG4Decode_loses_padByte :
    ¬ ∀ (vocab : Vocab) (merges : List Bytes) (tables : MergeTables) (controls : ControlIds)
      (text : Text), spG4Build vocab merges = some tables → PlainTokens vocab tables controls →
        '▁' ∉ text →
          spG4Decode vocab controls (spG4Encode vocab tables [] controls.bos (utf8 text)) =
            utf8 text := by
  intro claim
  have kept := claim spacedVocab letterMerges spacedTables ⟨0, none, some 105, none⟩ ['c']
    spacedVocab_built
    (spacedVocab_plain fun id skipped => by
      have named : id = 0 ∨ id = 105 := by simpa [ControlIds.skips] using skipped
      omega)
    (by decide)
  exact absurd kept (by decide +kernel)

end KairosEngine.Tokenizer
