import KairosEngine.Tokenizer.Gemma4Decode

/-!
# The two decoders of the gemma4 lane

The daemon encodes with `sp_g4_encode` and decodes with a table of its own.  The table knows U+2581
but neither byte tokens nor control tokens, so a character that is not a token comes back as the
surfaces of its bytes.
-/

namespace KairosEngine.Tokenizer

open KairosEngine.Library

/-- `decode_token`. -/
def SptbTokenizer.decodeToken (tok : SptbTokenizer) (id : Nat) : Bytes := tok.idToBytes[id]?.getD []

/-- What the two decoders agree on: a control token without a text, or any other token that is not
of the shape `<0xHH>`. -/
def ReadAlike (vocab : Vocab) (controls : ControlIds) (id : Nat) : Prop :=
  ∀ surface, vocab[id]? = some surface →
    if controls.skips id then surface = [] else byteToken surface = none

instance {vocab : Vocab} {controls : ControlIds} {id : Nat} :
    Decidable (ReadAlike vocab controls id) :=
  decidable_of_iff
    ((vocab[id]?.all fun surface =>
      if controls.skips id then decide (surface = []) else decide (byteToken surface = none)) = true)
    (by
      unfold ReadAlike
      cases vocab[id]? with
      | none => simp
      | some surface => cases controls.skips id <;> simp)

/-! ## One token -/

theorem length_flatMap_le {Entry Value : Type} {first second : Entry → List Value}
    {entries : List Entry}
    (shorter : ∀ entry ∈ entries, (second entry).length ≤ (first entry).length) :
    (entries.flatMap second).length ≤ (entries.flatMap first).length := by
  induction entries with
  | nil => exact le_rfl
  | cons entry rest inductionHypothesis =>
      rw [List.flatMap_cons, List.flatMap_cons, List.length_append, List.length_append]
      exact Nat.add_le_add (shorter entry List.mem_cons_self)
        (inductionHypothesis fun other member => shorter other (List.mem_cons_of_mem _ member))

/-- Where one side never has more, equal concatenations have equal parts. -/
theorem flatMap_eq_flatMap_iff {Entry Value : Type} {first second : Entry → List Value}
    {entries : List Entry}
    (shorter : ∀ entry ∈ entries, (second entry).length ≤ (first entry).length)
    (same : ∀ entry ∈ entries, (first entry).length = (second entry).length →
      first entry = second entry) :
    entries.flatMap first = entries.flatMap second ↔
      ∀ entry ∈ entries, first entry = second entry := by
  constructor
  · intro equal
    induction entries with
    | nil => nofun
    | cons entry rest inductionHypothesis =>
        have here := shorter entry List.mem_cons_self
        have later := length_flatMap_le fun other member =>
          shorter other (List.mem_cons_of_mem entry member)
        rw [List.flatMap_cons, List.flatMap_cons] at equal
        have lengths := congrArg List.length equal
        rw [List.length_append, List.length_append] at lengths
        have head := same entry List.mem_cons_self (by omega)
        rw [head] at equal
        intro other member
        rcases List.mem_cons.mp member with rfl | behind
        · exact head
        · exact inductionHypothesis
            (fun other member => shorter other (List.mem_cons_of_mem _ member))
            (fun other member => same other (List.mem_cons_of_mem _ member))
            (List.append_cancel_left equal) other behind
  · exact List.flatMap_congr

/-- A byte token is six bytes in the daemon's table. -/
theorem length_unescape_byteToken {surface : Bytes} {byte : UInt8}
    (shape : byteToken surface = some byte) : (unescapeSpaces surface).length = 6 := by
  unfold byteToken at shape
  split at shape
  next opening zero x high low closing =>
    split at shape
    next fixed =>
      obtain ⟨rfl, rfl, rfl, rfl⟩ := fixed
      simp [unescapeSpaces]
    next => cases shape
  next => cases shape

section Token

variable {tok : SptbTokenizer} (lane : ∀ encode, tok.encoder ≠ .crate encode)

include lane

theorem idToBytes_gemma4 :
    tok.idToBytes = tok.vocab.map fun surface => utf8 (surface.map unescapeSpace) := by
  unfold SptbTokenizer.idToBytes
  split
  next encode crate => exact absurd crate (lane encode)
  next => rfl

/-- The daemon's table has the unescaped surface of every token. -/
theorem decodeToken_eq {id : Nat} {surface : Text} (named : tok.vocab[id]? = some surface) :
    tok.decodeToken id = unescapeSpaces (utf8 surface) := by
  rw [SptbTokenizer.decodeToken, idToBytes_gemma4 lane, List.getElem?_map, named,
    unescapeSpaces_utf8]
  rfl

theorem decodeToken_none {id : Nat} (missing : tok.vocab[id]? = none) : tok.decodeToken id = [] := by
  rw [SptbTokenizer.decodeToken, idToBytes_gemma4 lane, List.getElem?_map, missing]
  rfl

variable {controls : ControlIds} {id : Nat}

theorem decodeToken_of_alike (alike : ReadAlike (tok.vocab.map utf8) controls id) :
    tok.decodeToken id = g4TokenBytes (tok.vocab.map utf8) controls id := by
  unfold ReadAlike at alike
  unfold g4TokenBytes
  rw [List.getElem?_map] at alike ⊢
  cases named : tok.vocab[id]? with
  | none => exact decodeToken_none lane named
  | some surface =>
      rw [named] at alike
      have agreed := alike _ rfl
      rw [decodeToken_eq lane named]
      simp only [Option.map_some]
      split at agreed
      next skipped => rw [if_pos skipped, agreed, unescapeSpaces_nil]
      next shown => rw [if_neg shown, agreed]

theorem g4TokenBytes_shorter (unlike : ¬ ReadAlike (tok.vocab.map utf8) controls id) :
    (g4TokenBytes (tok.vocab.map utf8) controls id).length < (tok.decodeToken id).length := by
  unfold ReadAlike at unlike
  push Not at unlike
  obtain ⟨bytes, found, different⟩ := unlike
  rw [List.getElem?_map] at found
  obtain ⟨surface, named, rfl⟩ := Option.map_eq_some_iff.mp found
  unfold g4TokenBytes
  rw [List.getElem?_map, named, decodeToken_eq lane named]
  simp only [Option.map_some]
  split at different
  next skipped =>
    rw [if_pos skipped, unescapeSpaces_utf8]
    apply List.length_pos_of_ne_nil
    intro empty
    exact different (utf8_eq_nil.mpr (List.map_eq_nil_iff.mp (utf8_eq_nil.mp empty)))
  next shown =>
    obtain ⟨byte, shape⟩ := Option.ne_none_iff_exists'.mp different
    rw [if_neg shown, shape, length_unescape_byteToken shape]
    exact Nat.lt_of_sub_eq_succ rfl

/-- The decoders agree on ids exactly when they agree on every one of them. -/
theorem decodeTokens_eq_iff (ids : List Nat) :
    ids.flatMap tok.decodeToken = spG4Decode (tok.vocab.map utf8) controls ids ↔
      ∀ id ∈ ids, ReadAlike (tok.vocab.map utf8) controls id := by
  have one : ∀ id, tok.decodeToken id = g4TokenBytes (tok.vocab.map utf8) controls id ↔
      ReadAlike (tok.vocab.map utf8) controls id := by
    intro id
    constructor
    · intro equal
      by_contra unlike
      exact absurd (congrArg List.length equal.symm) (g4TokenBytes_shorter lane unlike).ne
    · exact decodeToken_of_alike lane
  rw [spG4Decode, flatMap_eq_flatMap_iff]
  · exact forall₂_congr fun id _ => one id
  · intro id _
    by_cases alike : ReadAlike (tok.vocab.map utf8) controls id
    · rw [decodeToken_of_alike lane alike]
    · exact (g4TokenBytes_shorter lane alike).le
  · intro id _ lengths
    rw [one]
    by_contra unlike
    exact absurd lengths (g4TokenBytes_shorter lane unlike).ne'

end Token

/-- The decoders agree on a text exactly when its ids, the leading `<bos>` apart, are read alike. -/
theorem decodeToken_eq_spG4Decode_iff (tok : SptbTokenizer)
    (lane : ∀ encode, tok.encoder ≠ .crate encode) (tables : MergeTables) (controls : ControlIds)
    (specials : List (Bytes × Nat)) (text : Text) :
    let ids := (spG4Encode (tok.vocab.map utf8) tables specials controls.bos (utf8 text)).drop 1
    ids.flatMap tok.decodeToken = spG4Decode (tok.vocab.map utf8) controls ids ↔
      ∀ id ∈ ids, ReadAlike (tok.vocab.map utf8) controls id :=
  decodeTokens_eq_iff lane _

/-- The surfaces of `spacedVocab`. -/
def spacedSurfaces : List Text :=
  ["<bos>".toList, ['▁'], ['a'], ['b'], ['a', 'a'], ['a', 'b']] ++
    (List.range 256).map fun byte => (byteSurface byte).map fun ascii => Char.ofNat ascii.toNat

theorem spacedSurfaces_utf8 : spacedSurfaces.map utf8 = spacedVocab := by
  decide +kernel

def spacedTokenizer : SptbTokenizer where
  archId := 7
  vocab := spacedSurfaces
  encoder := .gemma4
    { merges := letterMerges
      tables := spacedTables
      built := spacedSurfaces_utf8 ▸ spacedVocab_built
      bos := 0
      bosNamed := rfl }
  thinking := false

/-- The text `a bb aab` has a space and a merge, and only characters that are tokens. -/
theorem decodeToken_eq_spG4Decode_iff_letters :
    let ids := (spG4Encode (spacedTokenizer.vocab.map utf8) spacedTables [] 0
      (utf8 "a bb aab".toList)).drop 1
    ids.flatMap spacedTokenizer.decodeToken =
      spG4Decode (spacedTokenizer.vocab.map utf8) ⟨0, none, none, none⟩ ids :=
  (decodeToken_eq_spG4Decode_iff spacedTokenizer nofun spacedTables ⟨0, none, none, none⟩ [] _).mpr
    (by decide +kernel)

/-- The letter `c` is not a token: the engine decodes its byte token to `c`, the daemon to the six
bytes `<0x63>`. -/
theorem decodeToken_spells_byte :
    spG4Build (spacedTokenizer.vocab.map utf8) letterMerges = some spacedTables ∧
      let ids := (spG4Encode (spacedTokenizer.vocab.map utf8) spacedTables [] 0
        (utf8 ['c'])).drop 1
      ids.flatMap spacedTokenizer.decodeToken = utf8 "<0x63>".toList ∧
        spG4Decode (spacedTokenizer.vocab.map utf8) ⟨0, none, none, none⟩ ids = utf8 ['c'] ∧
          ids.flatMap spacedTokenizer.decodeToken ≠
            spG4Decode (spacedTokenizer.vocab.map utf8) ⟨0, none, none, none⟩ ids :=
  ⟨spacedSurfaces_utf8 ▸ spacedVocab_built, by decide +kernel⟩

/-! ## Texts on which the decoders agree -/

section Listed

variable {vocab : Vocab} {merges : List Bytes} {tables : MergeTables} {controls : ControlIds}
  (built : spG4Build vocab merges = some tables)

/-- A string that is a token. -/
def Listed (vocab : Vocab) (surface : Bytes) : Prop := (vocabLookup vocab surface).isSome = true

theorem PlainTokens.alike (plain : PlainTokens vocab tables controls) {id : Nat}
    (reached : Reached vocab tables id) : ReadAlike vocab controls id := by
  intro surface named
  rw [plain.shown id reached, if_neg Bool.false_ne_true]
  exact plain.textual id surface reached named

include built

theorem byteTok_unlike (byte : UInt8) :
    ¬ ReadAlike vocab controls (tables.byteTok.getD byte.toNat 0) := by
  obtain ⟨id, stored, found⟩ := byteTok_of_build built byte.toNat_lt
  rw [List.getD_eq_getElem?_getD, stored, Option.getD_some]
  intro alike
  have agreed := alike _ (vocabLookup_getElem found)
  split at agreed
  next => cases agreed
  next =>
    rw [byteToken_byteSurface] at agreed
    cases agreed

theorem symbols_listed_iff (piece : Bytes) :
    (∀ symbol ∈ mergeAll (mergeRank merges) (utf8Chunks piece), Listed vocab symbol) ↔
      ∀ chunk ∈ utf8Chunks piece, Listed vocab chunk := by
  have resolved := @(accepted_of_build built).resolved
  constructor
  · intro symbols chunk member
    by_contra missing
    have unranked : ∀ other, mergeRank merges chunk other = none ∧
        mergeRank merges other chunk = none := by
      intro other
      rw [Option.eq_none_iff_forall_ne_some, Option.eq_none_iff_forall_ne_some]
      exact ⟨fun rank ranked => missing (resolved ranked).1,
        fun rank ranked => missing (resolved ranked).2.1⟩
    exact missing (symbols chunk (mem_mergeAll_of_unranked unranked member))
  · intro chunks
    apply mergeAll_forall chunks
    intro left right rank _ _ ranked
    obtain ⟨_, _, id, found, _⟩ := resolved ranked
    rw [Listed, found]
    rfl

variable (plain : PlainTokens vocab tables controls)

include plain

theorem emitText_alike_iff {symbol : Bytes} (known : Symbol merges symbol) :
    (∀ id ∈ emitText vocab tables symbol, ReadAlike vocab controls id) ↔ Listed vocab symbol := by
  unfold emitText Listed
  cases found : vocabLookup vocab symbol with
  | some id => simpa using plain.alike (known.reached built found)
  | none =>
      obtain ⟨c, rfl⟩ := known.unlisted built found
      obtain ⟨lead, tail, bytes, _⟩ := utf8EncodeChar_lead c
      rw [utf8_singleton, bytes]
      constructor
      · intro alike
        exact absurd (alike _ (List.mem_map_of_mem List.mem_cons_self)) (byteTok_unlike built lead)
      · nofun

theorem plainPiece_alike_iff (text : Text) :
    (∀ id ∈ plainPiece vocab merges tables (utf8 text), ReadAlike vocab controls id) ↔
      ∀ chunk ∈ utf8Chunks (utf8 text), Listed vocab chunk := by
  have symbols := @symbols_mergeAll merges text
  rw [← symbols_listed_iff built, plainPiece, List.forall_mem_flatMap]
  exact forall₂_congr fun symbol member => emitText_alike_iff built plain (symbols symbol member)

theorem g4Piece_alike_iff {text : Text} {isNlRun : Bool}
    (run : isNlRun = true → ∀ byte ∈ utf8 text, byte = newline) :
    (∀ id ∈ g4Piece vocab tables (utf8 text) isNlRun, ReadAlike vocab controls id) ↔
      isNlRun = true ∧ Listed vocab (utf8 text) ∨
        ∀ chunk ∈ utf8Chunks (utf8 text), Listed vocab chunk := by
  by_cases shortcut : isNlRun = true ∧ Listed vocab (utf8 text)
  · obtain ⟨newlines, listed⟩ := shortcut
    obtain ⟨id, found⟩ := Option.isSome_iff_exists.mp listed
    have reached := @reached_newlines vocab tables _ (run newlines) _ found
    rw [g4Piece_newlines newlines found]
    simpa [newlines, listed] using plain.alike reached
  · rw [g4Piece_eq_plain built, plainPiece_alike_iff built plain]
    · simp [shortcut]
    · intro newlines
      by_contra listed
      exact shortcut ⟨newlines, Option.isSome_iff_ne_none.mpr listed⟩

/-- Where no token that is reached is a control token or looks like a byte, the decoders agree on
the texts whose characters, escaped, are tokens, runs of newlines that are tokens apart. -/
theorem decodeTokens_eq_iff_listed {tok : SptbTokenizer}
    (lane : ∀ encode, tok.encoder ≠ .crate encode) (same : tok.vocab.map utf8 = vocab)
    (text : Text) :
    let ids := (spG4Encode vocab tables [] controls.bos (utf8 text)).drop 1
    ids.flatMap tok.decodeToken = spG4Decode vocab controls ids ↔
      ∀ piece ∈ newlineRuns (escapeSpaces (utf8 text)),
        (piece.head? == some newline) = true ∧ Listed vocab piece ∨
          ∀ chunk ∈ utf8Chunks piece, Listed vocab chunk := by
  intro ids
  have fragment : ids = g4Fragment vocab tables (utf8 text) := by
    change specialScan vocab tables [] (utf8 text).length [] (utf8 text) = _
    rw [specialScan_nil _ _ _ le_rfl, List.nil_append]
  subst same
  rw [fragment, decodeTokens_eq_iff lane, g4Fragment, List.forall_mem_flatMap]
  refine forall₂_congr fun piece member => ?_
  rw [escapeSpaces_utf8, newlineRuns_utf8] at member
  obtain ⟨characters, _, rfl⟩ := List.mem_map.mp member
  rw [← newlineRuns_utf8] at member
  exact g4Piece_alike_iff built plain (OutOfReach.newlineRuns_run member)

end Listed

end KairosEngine.Tokenizer
