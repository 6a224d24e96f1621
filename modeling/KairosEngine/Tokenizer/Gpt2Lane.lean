import KairosEngine.Tokenizer.Gemma4Encode
import KairosEngine.Tokenizer.Gpt2Pieces

/-!
# The byte-level lane of `tokenizer.c`

Every byte is spelled by a codepoint of its own, merges join neighbouring symbols, and the decoder
reads the codepoints of a token back as bytes.  Offsets and key lengths are `uint32_t`, so texts,
pieces and tokens from 2^32 bytes on are cut.
-/

namespace KairosEngine.Tokenizer

/-! ## The tables -/

/-- An index as an `int32_t`. -/
def int32 (value : Nat) : Int := Int.bmod value (2 ^ 32)

/-- A key of an `hmap`; its length is a `uint32_t`. -/
def hmapKey (bytes : Bytes) : Bytes := bytes.take (word bytes.length)

/-- `hmap_get`, the entries put under their indices: the first writer of a key wins. -/
def hmapGet (entries : List Bytes) (key : Bytes) : Option Nat :=
  entries.findIdx? fun entry => decide (hmapKey entry = hmapKey key)

def printable (b : Nat) : Bool := decide (33 ≤ b ∧ b ≤ 126 ∨ 161 ≤ b ∧ b ≤ 172 ∨ 174 ≤ b ∧ b ≤ 255)

/-- The codepoint that spells a byte. -/
def byteToCp (b : Nat) : Nat :=
  if printable b then b else 256 + (List.range b).countP fun other => !printable other

/-- `cp_to_byte`; no two bytes share a codepoint. -/
def cpToByte (cp : Nat) : Option Nat := (List.range 256).find? fun b => byteToCp b == cp

/-- The UTF-8 of the codepoint of a byte. -/
def bcp (b : UInt8) : Bytes :=
  let cp := byteToCp b.toNat
  if cp < 0x80 then [UInt8.ofNat cp]
  else [UInt8.ofNat (0xC0 ||| cp >>> 6), UInt8.ofNat (0x80 ||| cp &&& 0x3F)]

def byteLevel (bytes : Bytes) : Bytes := bytes.flatMap bcp

/-! ## The decoder -/

/-- The bytes of a token: those its codepoints spell, and the others as they are. -/
def surfaceFrom : Nat → Bytes → Bytes
  | 0, _ => []
  | fuel + 1, surface =>
      if surface = [] then []
      else
        let (cp, adv) := cpDecode surface
        (match cpToByte cp with
          | some b => [UInt8.ofNat b]
          | none => surface.take adv) ++ surfaceFrom fuel (surface.drop adv)

def surfaceBytes (surface : Bytes) : Bytes := surfaceFrom surface.length surface

/-- `sp_tokenizer_decode` on this lane, into a buffer that holds the text. -/
def spTokenizerDecode (vocab : Vocab) (ids : List Int) : Bytes :=
  ids.flatMap fun id => if id < 0 then [] else (vocab[id.toNat]?).elim [] surfaceBytes

/-! ## The encoder -/

/-- `soff` and `slen` of a symbol. -/
structure BpeSym where
  soff : Nat
  slen : Nat

def BpeSym.text (enc : Bytes) (sym : BpeSym) : Bytes := span enc sym.soff sym.slen

/-- One symbol for each byte. -/
def initBpe : Nat → Bytes → List BpeSym
  | _, [] => []
  | ne, b :: rest => ⟨word ne, (bcp b).length⟩ :: initBpe (ne + (bcp b).length) rest

/-- The rank of the line `left right`. -/
def bpeRank (merges : List Bytes) (left right : Bytes) : Option Nat :=
  hmapGet merges (left ++ 0x20 :: right)

/-- The left symbol takes the length of the right one. -/
def joinAt (symbols : List BpeSym) (bi : Nat) : List BpeSym :=
  (symbols.modify bi fun sym =>
    { sym with slen := word (sym.slen + (symbols[bi + 1]?).elim 0 BpeSym.slen) }).eraseIdx (bi + 1)

def bpeLoop (merges : List Bytes) (enc : Bytes) : Nat → List BpeSym → List BpeSym
  | 0, symbols => symbols
  | fuel + 1, symbols =>
      match bestPair (bpeRank merges) (symbols.map (BpeSym.text enc)) with
      | some (_, bi) => bpeLoop merges enc fuel (joinAt symbols bi)
      | none => symbols

/-- `bpe_piece`; every merge takes a symbol away.  A symbol that is no token is an error. -/
def bpePiece (vocab : Vocab) (merges : List Bytes) (piece : Bytes) : Option (List Int) :=
  let enc := byteLevel piece
  (bpeLoop merges enc piece.length (initBpe 0 piece)).mapM fun sym =>
    (hmapGet vocab (sym.text enc)).map int32

/-- The codepoints of a text, each with its entry of `boff`. -/
def codepoints : Nat → Nat → Bytes → List (Nat × Nat)
  | 0, _, _ => []
  | fuel + 1, i, bytes =>
      if bytes = [] then []
      else
        let (cp, adv) := cpDecode bytes
        (cp, word i) :: codepoints fuel (i + adv) (bytes.drop adv)

/-- The entry of `boff` at the first of these codepoints; behind them all is the sentinel. -/
def boffAt (len : Nat) : List (Nat × Nat) → Nat
  | [] => word len
  | (_, boff) :: _ => boff

/-- The loop over the pieces.  Where `boff` wraps inside a piece, its length is negative and the code
reads on behind the text: there is no result. -/
def cutFrom (tables : UnicodeTables) (text : Bytes) : Nat → List (Nat × Nat) → Option (List Bytes)
  | _, [] => some []
  | 0, _ :: _ => none
  | fuel + 1, first :: rest => do
      let later := (first :: rest).drop (nextPiece tables ((first :: rest).map Prod.fst))
      let rstart := boffAt text.length (first :: rest)
      let rend := boffAt text.length later
      if rend < rstart then none
      else
        let pieces ← cutFrom tables text fuel later
        return span text rstart (rend - rstart) :: pieces

def cutPieces (tables : UnicodeTables) (text : Bytes) : Option (List Bytes) :=
  let cps := codepoints text.length 0 text
  cutFrom tables text cps.length cps

/-- `encode_text`. -/
def encodeText (tables : UnicodeTables) (vocab : Vocab) (merges : List Bytes) (text : Bytes) :
    Option (List Int) := do
  let pieces ← cutPieces tables text
  let ids ← pieces.mapM (bpePiece vocab merges)
  return ids.flatten

/-- `sp_tokenizer_encode` on this lane with `parse_special` 0, an allocation failure apart: the ids
where it returns their count, nothing where it returns an error. -/
def gpt2Encode (tables : UnicodeTables) (vocab : Vocab) (merges : List Bytes) (text : Bytes) :
    Option (List Int) :=
  if text = [] then some [] else encodeText tables vocab merges text

/-! ## Bytes and their codepoints -/

theorem byteToCp_lt : ∀ b < 256, byteToCp b < 0x144 := by
  decide +kernel

theorem countP_unprintable {first second : Nat} (hidden : printable first = false)
    (before : first < second) :
    ((List.range first).countP fun other => !printable other) <
      (List.range second).countP fun other => !printable other := by
  have next : (List.range (first + 1)).countP (fun other => !printable other) =
      (List.range first).countP (fun other => !printable other) + 1 := by
    rw [List.range_succ, List.countP_append]
    simp [hidden]
  have longer : (List.range (first + 1)).countP (fun other => !printable other) ≤
      (List.range second).countP fun other => !printable other :=
    (List.range_sublist.mpr before).countP_le
  omega

/-- Printable bytes spell themselves, and the others are counted off behind them. -/
theorem byteToCp_injective {first second : Nat} (firstByte : first < 256) (secondByte : second < 256)
    (same : byteToCp first = byteToCp second) : first = second := by
  unfold byteToCp at same
  split at same
  next =>
    split at same
    next => exact same
    next => omega
  next firstHidden =>
    split at same
    next => omega
    next secondHidden =>
      have equal := Nat.add_left_cancel same
      rcases lt_trichotomy first second with before | rfl | behind
      · exact absurd equal (countP_unprintable (eq_false_of_ne_true firstHidden) before).ne
      · rfl
      · exact absurd equal (countP_unprintable (eq_false_of_ne_true secondHidden) behind).ne'

theorem cpToByte_byteToCp {b : Nat} (below : b < 256) : cpToByte (byteToCp b) = some b := by
  rw [cpToByte, List.find?_range_eq_some]
  refine ⟨beq_self_eq_true _, List.mem_range.mpr below, ?_⟩
  intro other before
  rw [Bool.not_eq_true', beq_eq_false_iff_ne]
  exact fun same => before.ne (byteToCp_injective (before.trans below) below same)

theorem byteToCp_twoBytes : ∀ cp < 0x144, 0x80 ≤ cp →
    (0xC0 ||| cp >>> 6) < 256 ∧ (0x80 ||| cp &&& 0x3F) < 256 ∧ 0x80 ≤ (0xC0 ||| cp >>> 6) ∧
      (0xC0 ||| cp >>> 6) &&& 0xE0 = 0xC0 ∧
        ((0xC0 ||| cp >>> 6) &&& 0x1F) <<< 6 ||| (0x80 ||| cp &&& 0x3F) &&& 0x3F = cp := by
  decide +kernel

theorem cpDecode_bcp (b : UInt8) (rest : Bytes) :
    cpDecode (bcp b ++ rest) = (byteToCp b.toNat, (bcp b).length) := by
  have small := byteToCp_lt b.toNat b.toNat_lt
  unfold bcp
  simp only
  split
  next ascii =>
    have lead : (UInt8.ofNat (byteToCp b.toNat)).toNat = byteToCp b.toNat := by
      rw [UInt8.toNat_ofNat']
      omega
    simp only [cpDecode, List.cons_append, lead]
    rw [if_pos ascii]
    rfl
  next large =>
    obtain ⟨first, second, high, shape, value⟩ := byteToCp_twoBytes _ small (not_lt.mp large)
    simp only [cpDecode, List.cons_append, List.nil_append, UInt8.toNat_ofNat',
      List.getD_cons_zero, List.length_cons]
    rw [Nat.mod_eq_of_lt first, Nat.mod_eq_of_lt second, if_neg (not_lt.mpr high),
      if_pos ⟨shape, Nat.succ_pos _⟩, value]
    rfl

theorem bcp_ne_nil (b : UInt8) : bcp b ≠ [] := by
  unfold bcp
  simp only
  split <;> exact List.cons_ne_nil _ _

theorem byteLevel_cons (b : UInt8) (bytes : Bytes) :
    byteLevel (b :: bytes) = bcp b ++ byteLevel bytes := List.flatMap_cons

theorem byteLevel_append (first second : Bytes) :
    byteLevel (first ++ second) = byteLevel first ++ byteLevel second := List.flatMap_append

/-- The decoder reads a byte-level string back. -/
theorem surfaceFrom_byteLevel (bytes : Bytes) (fuel : Nat)
    (enough : (byteLevel bytes).length ≤ fuel) : surfaceFrom fuel (byteLevel bytes) = bytes := by
  induction bytes generalizing fuel with
  | nil => cases fuel <;> rfl
  | cons b bytes inductionHypothesis =>
      have positive := List.length_pos_of_ne_nil (bcp_ne_nil b)
      have nonempty : bcp b ++ byteLevel bytes ≠ [] := List.append_ne_nil_of_left_ne_nil (bcp_ne_nil b) _
      have spelled := cpToByte_byteToCp b.toNat_lt
      rw [byteLevel_cons, List.length_append] at enough
      obtain ⟨fuel, rfl⟩ := Nat.exists_eq_succ_of_ne_zero (by omega : fuel ≠ 0)
      rw [byteLevel_cons, surfaceFrom, if_neg nonempty, cpDecode_bcp]
      simp only
      rw [spelled, List.drop_left, inductionHypothesis fuel (by omega)]
      simp only [UInt8.ofNat_toNat, List.singleton_append]

theorem surfaceBytes_byteLevel (bytes : Bytes) : surfaceBytes (byteLevel bytes) = bytes :=
  surfaceFrom_byteLevel bytes _ le_rfl

theorem byteLevel_injective : Function.Injective byteLevel :=
  Function.LeftInverse.injective surfaceBytes_byteLevel

/-! ## The symbols of a piece -/

/-- Symbols that lie behind each other from an offset on, to the end of `enc`. -/
inductive Tiles (enc : Bytes) : Nat → List BpeSym → Prop
  | done {offset : Nat} (last : offset = enc.length) : Tiles enc offset []
  | next {offset : Nat} {sym : BpeSym} {rest : List BpeSym} (here : sym.soff = offset)
      (tiled : Tiles enc (offset + sym.slen) rest) : Tiles enc offset (sym :: rest)

theorem Tiles.le {enc : Bytes} {offset : Nat} {symbols : List BpeSym}
    (tiled : Tiles enc offset symbols) : offset ≤ enc.length := by
  induction tiled with
  | done last => exact last.le
  | next _ _ inductionHypothesis => exact Nat.le_of_add_right_le inductionHypothesis

section Piece

variable {enc : Bytes} (narrow : enc.length < 2 ^ 32)

include narrow

theorem word_of_le {value : Nat} (inside : value ≤ enc.length) : word value = value :=
  Nat.mod_eq_of_lt (by omega)

/-- One symbol for each byte, and its text is the codepoint of the byte. -/
theorem initBpe_tiles {piece front : Bytes} (whole : enc = front ++ byteLevel piece) :
    Tiles enc front.length (initBpe front.length piece) ∧
      (initBpe front.length piece).map (BpeSym.text enc) = piece.map bcp := by
  induction piece generalizing front with
  | nil =>
      rw [byteLevel, List.flatMap_nil, List.append_nil] at whole
      exact ⟨.done (by rw [whole]), rfl⟩
  | cons b piece inductionHypothesis =>
      have here : word front.length = front.length := by
        apply word_of_le narrow
        rw [whole, List.length_append]
        omega
      rw [byteLevel_cons, ← List.append_assoc] at whole
      obtain ⟨tiled, texts⟩ := inductionHypothesis whole
      rw [List.length_append] at tiled texts
      rw [initBpe, List.map_cons, List.map_cons, texts, here]
      refine ⟨.next rfl tiled, ?_⟩
      rw [BpeSym.text, span, whole, List.append_assoc, List.drop_left, List.take_left]

/-- Joining two symbols joins their texts. -/
theorem joinAt_tiles {symbols : List BpeSym} {offset bi : Nat} (tiled : Tiles enc offset symbols)
    (inside : bi + 1 < symbols.length) :
    Tiles enc offset (joinAt symbols bi) ∧
      (joinAt symbols bi).map (BpeSym.text enc) = mergeAt (symbols.map (BpeSym.text enc)) bi := by
  induction bi generalizing symbols offset with
  | zero =>
      cases tiled with
      | done => exact absurd inside (Nat.not_lt_zero _)
      | @next _ first _ here tiled =>
          cases tiled with
          | done => exact absurd inside (lt_irrefl 1)
          | @next _ second rest there tiled =>
              have joined : word (first.slen + second.slen) = first.slen + second.slen := by
                have behind := tiled.le
                exact word_of_le narrow (by omega)
              rw [Nat.add_assoc, ← joined] at tiled
              refine ⟨.next here tiled, ?_⟩
              change span enc first.soff (word (first.slen + second.slen)) :: _ =
                (first.text enc ++ second.text enc) :: _
              rw [joined, BpeSym.text, BpeSym.text, there, ← here, span_append]
              rfl
  | succ bi inductionHypothesis =>
      cases tiled with
      | done => exact absurd inside (Nat.not_lt_zero _)
      | @next _ first rest here tiled =>
          obtain ⟨tiles, texts⟩ := inductionHypothesis tiled (Nat.lt_of_succ_lt_succ inside)
          refine ⟨.next here tiles, ?_⟩
          change first.text enc :: (joinAt rest bi).map (BpeSym.text enc) =
            first.text enc :: mergeAt (rest.map (BpeSym.text enc)) bi
          rw [texts]

/-- The loop over `soff` and `slen` is the plain merge of the texts. -/
theorem bpeLoop_texts {merges : List Bytes} (fuel : Nat) {symbols : List BpeSym}
    (tiled : Tiles enc 0 symbols) (enough : symbols.length ≤ fuel) :
    (bpeLoop merges enc fuel symbols).map (BpeSym.text enc) =
      mergeAll (bpeRank merges) (symbols.map (BpeSym.text enc)) := by
  induction fuel generalizing symbols with
  | zero =>
      have none : bestPair (bpeRank merges) [] = none := rfl
      rw [List.length_eq_zero_iff.mp (Nat.le_zero.mp enough), bpeLoop, List.map_nil,
        mergeAll_of_none _ none]
  | succ fuel inductionHypothesis =>
      rw [bpeLoop]
      split
      next found bi best =>
        have inside := bestPair_inside _ best
        rw [List.length_map] at inside
        obtain ⟨tiles, texts⟩ := joinAt_tiles narrow tiled inside
        have shorter : (joinAt symbols bi).length + 1 = symbols.length := by
          rw [joinAt, List.length_eraseIdx_of_lt (by rwa [List.length_modify]), List.length_modify]
          omega
        rw [inductionHypothesis tiles (by omega), texts, ← mergeAll_of_best _ best]
      next none => rw [mergeAll_of_none _ none]

end Piece

/-! ## Decoding a piece -/

section Narrow

variable {vocab : Vocab} {merges : List Bytes}

/-- Lengths and ids of the tokens fit their 32-bit fields. -/
structure NarrowVocab (vocab : Vocab) : Prop where
  short : ∀ token ∈ vocab, token.length < 2 ^ 32
  few : vocab.length ≤ 2 ^ 31

theorem hmapKey_of_lt {bytes : Bytes} (short : bytes.length < 2 ^ 32) : hmapKey bytes = bytes := by
  rw [hmapKey, word, Nat.mod_eq_of_lt short, List.take_length]

theorem int32_of_lt {value : Nat} (small : value < 2 ^ 31) : int32 value = value := by
  unfold int32
  rw [Int.bmod_def]
  omega

/-- The token that is looked up is the one decoded. -/
theorem NarrowVocab.decode (narrow : NarrowVocab vocab) {key : Bytes} (short : key.length < 2 ^ 32)
    {id : Nat} (found : hmapGet vocab key = some id) :
    spTokenizerDecode vocab [int32 id] = surfaceBytes key := by
  obtain ⟨below, same, _⟩ := List.findIdx?_eq_some_iff_getElem.mp found
  have token := narrow.short vocab[id] (List.getElem_mem below)
  have equal := of_decide_eq_true same
  rw [hmapKey_of_lt token, hmapKey_of_lt short] at equal
  rw [int32_of_lt (lt_of_lt_of_le below narrow.few)]
  simp [spTokenizerDecode, List.getElem?_eq_getElem below, equal]

theorem spTokenizerDecode_cons (id : Int) (ids : List Int) :
    spTokenizerDecode vocab (id :: ids) =
      spTokenizerDecode vocab [id] ++ spTokenizerDecode vocab ids := by
  rw [spTokenizerDecode, spTokenizerDecode, spTokenizerDecode, List.flatMap_cons,
    List.flatMap_singleton]

theorem spTokenizerDecode_append (first second : List Int) :
    spTokenizerDecode vocab (first ++ second) =
      spTokenizerDecode vocab first ++ spTokenizerDecode vocab second := List.flatMap_append

/-- The ids of byte-level strings decode to what these spell. -/
theorem NarrowVocab.decode_mapM (narrow : NarrowVocab vocab) {enc : Bytes} {symbols : List BpeSym}
    {ids : List Int} (short : enc.length < 2 ^ 32)
    (mapped : (symbols.mapM fun sym => (hmapGet vocab (sym.text enc)).map int32) = some ids)
    (level : ∀ text ∈ symbols.map (BpeSym.text enc), ∃ bytes, text = byteLevel bytes) :
    byteLevel (spTokenizerDecode vocab ids) = (symbols.map (BpeSym.text enc)).flatten := by
  induction symbols generalizing ids with
  | nil =>
      cases mapped
      rfl
  | cons sym symbols inductionHypothesis =>
      simp only [List.mapM_cons, Option.bind_eq_bind, Option.bind_eq_some_iff, Option.pure_def,
        Option.map_eq_some_iff] at mapped
      obtain ⟨_, ⟨id, found, rfl⟩, others, later, same⟩ := mapped
      cases same
      rw [List.map_cons] at level ⊢
      obtain ⟨bytes, spelled⟩ := level _ List.mem_cons_self
      have inside : (sym.text enc).length < 2 ^ 32 := by
        have part : (sym.text enc).length ≤ enc.length := by
          rw [BpeSym.text, span, List.length_take, List.length_drop]
          omega
        omega
      rw [spTokenizerDecode_cons, byteLevel_append, narrow.decode inside found, List.flatten_cons,
        inductionHypothesis later fun text member => level text (List.mem_cons_of_mem _ member),
        spelled, surfaceBytes_byteLevel]

theorem NarrowVocab.decode_bpePiece (narrow : NarrowVocab vocab) {piece : Bytes} {ids : List Int}
    (short : (byteLevel piece).length < 2 ^ 32) (encoded : bpePiece vocab merges piece = some ids) :
    spTokenizerDecode vocab ids = piece := by
  obtain ⟨tiled, texts⟩ := @initBpe_tiles _ short piece [] rfl
  rw [List.length_nil] at tiled texts
  have count : (initBpe 0 piece).length = piece.length := by
    have lengths := congrArg List.length texts
    rwa [List.length_map, List.length_map] at lengths
  have merged := @bpeLoop_texts _ short merges piece.length _ tiled count.le
  rw [texts] at merged
  have level : ∀ text ∈ mergeAll (bpeRank merges) (piece.map bcp), ∃ bytes, text = byteLevel bytes := by
    apply mergeAll_forall
    · intro text member
      obtain ⟨b, _, rfl⟩ := List.mem_map.mp member
      exact ⟨[b], (List.append_nil _).symm⟩
    · rintro _ _ _ ⟨first, rfl⟩ ⟨second, rfl⟩ _
      exact ⟨first ++ second, (byteLevel_append first second).symm⟩
  apply byteLevel_injective
  rw [← merged] at level
  rw [narrow.decode_mapM short encoded level, merged, flatten_mergeAll]
  rfl

theorem NarrowVocab.decode_pieces (narrow : NarrowVocab vocab) {pieces : List Bytes}
    {ids : List (List Int)} (short : ∀ piece ∈ pieces, (byteLevel piece).length < 2 ^ 32)
    (encoded : pieces.mapM (bpePiece vocab merges) = some ids) :
    spTokenizerDecode vocab ids.flatten = pieces.flatten := by
  induction pieces generalizing ids with
  | nil =>
      cases encoded
      rfl
  | cons piece pieces inductionHypothesis =>
      simp only [List.mapM_cons, Option.bind_eq_bind, Option.bind_eq_some_iff,
        Option.pure_def] at encoded
      obtain ⟨first, here, others, later, same⟩ := encoded
      cases same
      rw [List.flatten_cons, List.flatten_cons, spTokenizerDecode_append,
        narrow.decode_bpePiece (short piece List.mem_cons_self) here,
        inductionHypothesis (fun other member => short other (List.mem_cons_of_mem _ member)) later]

end Narrow

/-! ## The pieces of a text -/

section Pieces

variable {tables : UnicodeTables} {text : Bytes}

theorem span_drop (text : Bytes) {rstart rend : Nat} (forward : rstart ≤ rend) :
    span text rstart (rend - rstart) ++ text.drop rend = text.drop rstart := by
  have split := List.take_append_drop (rend - rstart) (text.drop rstart)
  rwa [List.drop_drop, Nat.add_sub_cancel' forward] at split

/-- The pieces go from the first offset to the sentinel. -/
theorem cutFrom_flatten {fuel : Nat} {rest : List (Nat × Nat)} {pieces : List Bytes}
    (cut : cutFrom tables text fuel rest = some pieces) :
    pieces.flatten ++ text.drop (word text.length) = text.drop (boffAt text.length rest) := by
  induction fuel generalizing rest pieces with
  | zero =>
      cases rest with
      | nil =>
          cases cut
          rfl
      | cons => cases cut
  | succ fuel inductionHypothesis =>
      cases rest with
      | nil =>
          cases cut
          rfl
      | cons first rest =>
          simp only [cutFrom] at cut
          split at cut
          next => cases cut
          next forward =>
            simp only [Option.bind_eq_bind, Option.bind_eq_some_iff, Option.pure_def] at cut
            obtain ⟨later, cut, same⟩ := cut
            cases same
            rw [List.flatten_cons, List.append_assoc, inductionHypothesis cut]
            exact span_drop text (not_lt.mp forward)

/-- The pieces are the text up to its length as a `uint32_t`. -/
theorem cutPieces_flatten {pieces : List Bytes} (cut : cutPieces tables text = some pieces) :
    pieces.flatten ++ text.drop (word text.length) = text := by
  have whole := cutFrom_flatten cut
  cases text with
  | nil => exact whole
  | cons b text => exact whole

theorem cutPieces_flatten_iff {pieces : List Bytes} (cut : cutPieces tables text = some pieces) :
    pieces.flatten = text ↔ text.length < 2 ^ 32 := by
  have whole := cutPieces_flatten cut
  have below : word text.length < 2 ^ 32 := Nat.mod_lt _ (by decide)
  constructor
  · intro same
    rw [same, List.append_right_eq_self, List.drop_eq_nil_iff] at whole
    omega
  · intro short
    rw [word, Nat.mod_eq_of_lt short, List.drop_length, List.append_nil] at whole
    exact whole

/-- The offsets of a text below 2^32 bytes go up. -/
theorem codepoints_sorted {fuel i : Nat} {bytes : Bytes} (short : i + bytes.length < 2 ^ 32) :
    ((codepoints fuel i bytes).map Prod.snd).Pairwise (· ≤ ·) ∧
      ∀ offset ∈ (codepoints fuel i bytes).map Prod.snd, i ≤ offset ∧ offset ≤ i + bytes.length := by
  induction fuel generalizing i bytes with
  | zero => exact ⟨List.Pairwise.nil, nofun⟩
  | succ fuel inductionHypothesis =>
      rw [codepoints]
      split
      next => exact ⟨List.Pairwise.nil, nofun⟩
      next nonempty =>
        obtain ⟨_, inside⟩ := cpDecode_advances nonempty
        simp only [List.map_cons, List.pairwise_cons, List.forall_mem_cons]
        generalize (cpDecode bytes).2 = adv at inside ⊢
        have rest : i + adv + (bytes.drop adv).length = i + bytes.length := by
          rw [List.length_drop]
          omega
        have here : word i = i := Nat.mod_eq_of_lt (by omega)
        obtain ⟨sorted, bounds⟩ := @inductionHypothesis (i + adv) (bytes.drop adv) (by omega)
        rw [here]
        refine ⟨⟨?_, sorted⟩, ⟨le_rfl, Nat.le_add_right _ _⟩, ?_⟩
        · intro offset member
          have bound := bounds offset member
          omega
        · intro offset member
          have bound := bounds offset member
          omega

theorem boffAt_mem (len : Nat) (rest : List (Nat × Nat)) :
    boffAt len rest ∈ rest.map Prod.snd ++ [word len] := by
  cases rest with
  | nil => exact List.mem_singleton_self _
  | cons first rest => exact List.mem_cons_self

theorem cutFrom_isSome {fuel : Nat} {rest : List (Nat × Nat)} (enough : rest.length ≤ fuel)
    (sorted : (rest.map Prod.snd ++ [word text.length]).Pairwise (· ≤ ·)) :
    (cutFrom tables text fuel rest).isSome = true := by
  induction fuel generalizing rest with
  | zero =>
      rw [List.length_eq_zero_iff.mp (Nat.le_zero.mp enough)]
      rfl
  | succ fuel inductionHypothesis =>
      cases rest with
      | nil => rfl
      | cons first rest =>
          obtain ⟨positive, _⟩ := @nextPiece_takes tables ((first :: rest).map Prod.fst)
            (List.cons_ne_nil _ _)
          simp only [cutFrom]
          generalize nextPiece tables _ = taken at positive
          obtain ⟨taken, rfl⟩ := Nat.exists_eq_succ_of_ne_zero positive.ne'
          rw [List.drop_succ_cons]
          rw [List.map_cons, List.cons_append, List.pairwise_cons] at sorted
          have suffix : (rest.drop taken).map Prod.snd ++ [word text.length] <:+
              rest.map Prod.snd ++ [word text.length] := by
            rw [List.map_drop]
            exact ⟨_, by rw [← List.append_assoc, List.take_append_drop]⟩
          have shorter : (rest.drop taken).length ≤ fuel := by
            rw [List.length_drop]
            rw [List.length_cons] at enough
            omega
          have later := inductionHypothesis shorter (sorted.2.sublist suffix.sublist)
          have forward : boffAt text.length (first :: rest) ≤ boffAt text.length (rest.drop taken) :=
            sorted.1 _ (suffix.mem (boffAt_mem _ _))
          rw [if_neg (not_lt.mpr forward)]
          obtain ⟨pieces, cut⟩ := Option.isSome_iff_exists.mp later
          rw [cut]
          rfl

/-- A text below 2^32 bytes is cut into pieces: the loop ends, and no length wraps. -/
theorem cutPieces_isSome (short : text.length < 2 ^ 32) :
    (cutPieces tables text).isSome = true := by
  obtain ⟨sorted, bounds⟩ := @codepoints_sorted text.length 0 text (by omega)
  apply cutFrom_isSome le_rfl
  rw [List.pairwise_append]
  refine ⟨sorted, List.pairwise_singleton _ _, ?_⟩
  intro offset member last same
  have bound := bounds offset member
  rw [List.mem_singleton.mp same, word, Nat.mod_eq_of_lt short]
  omega

end Pieces

/-- The pieces of a text have byte-level forms below 2^32 bytes. -/
def NarrowPieces (tables : UnicodeTables) (text : Bytes) : Prop :=
  ∀ pieces, cutPieces tables text = some pieces →
    ∀ piece ∈ pieces, (byteLevel piece).length < 2 ^ 32

/-- Over narrow tokens and pieces, the ids of a text decode to it exactly if it is narrow as well. -/
theorem spTokenizerDecode_gpt2Encode_iff {tables : UnicodeTables} {vocab : Vocab}
    {merges : List Bytes} {text : Bytes} {ids : List Int} (narrowVocab : NarrowVocab vocab)
    (narrowPieces : NarrowPieces tables text)
    (encoded : gpt2Encode tables vocab merges text = some ids) :
    spTokenizerDecode vocab ids = text ↔ text.length < 2 ^ 32 := by
  unfold gpt2Encode at encoded
  split at encoded
  next empty =>
    cases encoded
    rw [empty]
    exact ⟨fun _ => by decide, fun _ => rfl⟩
  next =>
    simp only [encodeText, Option.bind_eq_bind, Option.bind_eq_some_iff, Option.pure_def] at encoded
    obtain ⟨pieces, cut, lists, mapped, same⟩ := encoded
    cases same
    rw [narrowVocab.decode_pieces (narrowPieces pieces cut) mapped, cutPieces_flatten_iff cut]

/-- Two letter ranges and the digits, as the generated tables have them. -/
def latinTables : UnicodeTables where
  spUniLetter := [(0x41, 0x5A), (0x61, 0x7A), (0xF8, 0x2C1)]
  spUniNumber := [(0x30, 0x39)]

/-- The bytes `ab 1`, which are three pieces and a merge, and `FF`, which is no UTF-8. -/
theorem spTokenizerDecode_gpt2Encode_iff_bytes :
    spTokenizerDecode [[0x61], [0x62], [0x61, 0x62], [0xC4, 0xA0], [0x31], [0xC3, 0xBF]]
      [2, 3, 4, 5] = [0x61, 0x62, 0x20, 0x31, 0xFF] :=
  (@spTokenizerDecode_gpt2Encode_iff latinTables
    [[0x61], [0x62], [0x61, 0x62], [0xC4, 0xA0], [0x31], [0xC3, 0xBF]] [[0x61, 0x20, 0x62]]
    [0x61, 0x62, 0x20, 0x31, 0xFF] [2, 3, 4, 5] ⟨by decide, by decide⟩
    (fun pieces cut => by
      have known : cutPieces latinTables [0x61, 0x62, 0x20, 0x31, 0xFF] =
          some [[0x61, 0x62], [0x20], [0x31], [0xFF]] := by
        rfl
      rw [known, Option.some.injEq] at cut
      subst cut
      decide)
    (rfl)).mpr (by decide)

/-! ### A text of 2^32 + 1 letters -/

theorem codepoints_replicate (count i : Nat) :
    codepoints count i (List.replicate count 0x61) =
      (List.range' i count).map fun offset => (0x61, word offset) := by
  induction count generalizing i with
  | zero => rfl
  | succ count inductionHypothesis =>
      rw [List.replicate_succ, codepoints, if_neg (List.cons_ne_nil _ _), List.range'_succ,
        List.map_cons, ← inductionHypothesis]
      rfl

theorem nextPiece_replicate {count : Nat} (positive : 0 < count) :
    nextPiece latinTables (List.replicate count 0x61) = count := by
  obtain ⟨count, rfl⟩ := Nat.exists_eq_succ_of_ne_zero positive.ne'
  have letter : latinTables.isL 0x61 = true := by decide
  have run : runLength latinTables.isL (List.replicate (count + 1) 0x61) = count + 1 := by
    rw [runLength, List.takeWhile_replicate, if_pos letter, List.length_replicate]
  have letters : alt2 latinTables (List.replicate (count + 1) 0x61) = some (count + 1) := by
    rw [List.replicate_succ] at run ⊢
    simp [alt2, letter, run]
  have contraction : alt1 (List.replicate (count + 1) 0x61) = none := by
    cases count <;> rfl
  unfold nextPiece
  rw [contraction, letters]

/-- A text that is one letter over and over is one piece, of its length as a `uint32_t`. -/
theorem cutPieces_replicate {count : Nat} (positive : 0 < count) :
    cutPieces latinTables (List.replicate count 0x61) =
      some [span (List.replicate count 0x61) 0 (word count)] := by
  have cps := codepoints_replicate count 0
  have firsts : (codepoints count 0 (List.replicate count 0x61)).map Prod.fst =
      List.replicate count 0x61 := by
    rw [cps, List.map_map]
    exact List.map_const'.trans (by rw [List.length_range'])
  have all : (codepoints count 0 (List.replicate count 0x61)).length = count := by
    rw [cps, List.length_map, List.length_range']
  have shape : ∃ rest, codepoints count 0 (List.replicate count 0x61) = (0x61, 0) :: rest := by
    obtain ⟨count, rfl⟩ := Nat.exists_eq_succ_of_ne_zero positive.ne'
    exact ⟨_, cps⟩
  obtain ⟨rest, shape⟩ := shape
  rw [shape] at firsts all
  unfold cutPieces
  simp only [List.length_replicate]
  rw [shape, all]
  obtain ⟨fuel, rfl⟩ := Nat.exists_eq_succ_of_ne_zero positive.ne'
  simp only [cutFrom]
  rw [firsts, nextPiece_replicate positive, List.drop_of_length_le all.le]
  simp [boffAt, cutFrom]

theorem gpt2Encode_replicate {count : Nat} (positive : 0 < count) (wraps : word count = 1) :
    gpt2Encode latinTables [[0x61]] [] (List.replicate count 0x61) = some [0] := by
  have nonempty : List.replicate count (0x61 : UInt8) ≠ [] := by
    rw [← List.length_pos_iff_ne_nil, List.length_replicate]
    exact positive
  have one : span (List.replicate count 0x61) 0 1 = [0x61] := by
    obtain ⟨count, rfl⟩ := Nat.exists_eq_succ_of_ne_zero positive.ne'
    rfl
  rw [gpt2Encode, if_neg nonempty, encodeText, cutPieces_replicate positive, wraps, one]
  rfl

/-- Of 2^32 + 1 letters `a` one is encoded. -/
theorem spTokenizerDecode_cuts_text :
    gpt2Encode latinTables [[0x61]] [] (List.replicate (2 ^ 32 + 1) 0x61) = some [0] ∧
      spTokenizerDecode [[0x61]] [0] = [0x61] ∧
        spTokenizerDecode [[0x61]] [0] ≠ List.replicate (2 ^ 32 + 1) 0x61 := by
  refine ⟨gpt2Encode_replicate (Nat.succ_pos _) rfl, rfl, ?_⟩
  intro same
  have lengths := congrArg List.length same
  rw [List.length_replicate] at lengths
  exact absurd lengths (by decide)

end KairosEngine.Tokenizer
