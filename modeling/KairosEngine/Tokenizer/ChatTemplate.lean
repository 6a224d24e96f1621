import KairosEngine.Library.Utf8
import KairosEngine.Tokenizer.Gemma4Encode

/-!
# Chat prompts as token ids

`apply_template_ids` of `tokenizer.rs`.  On the gemma archs the turn ids are placed one by one and
only the texts between them are encoded; on the ChatML archs the whole prompt is one text.
-/

namespace KairosEngine.Tokenizer

open KairosEngine.Library

abbrev Text := List Char

structure Message where
  role : Text
  content : Text
  deriving DecidableEq

/-! ## Templates -/

def templateRole (role : Text) : Text :=
  if role = "assistant".toList then "model".toList else role

/-- The block that is put before a list that does not begin with a system message. -/
def needsSystem (messages : List Message) : Bool :=
  (messages.head?.map fun message => decide (message.role ≠ "system".toList)).getD true

def chatmlTurn (message : Message) : Text :=
  "<|im_start|>".toList ++ message.role ++ '\n' :: (message.content ++ "<|im_end|>\n".toList)

def chatmlTemplate (messages : List Message) : Text :=
  (if needsSystem messages then "<|im_start|>system\n<|im_end|>\n".toList else []) ++
    (messages.flatMap chatmlTurn ++ "<|im_start|>assistant\n".toList)

def gemma3Template (messages : List Message) : Text :=
  (messages.flatMap fun message =>
    "<start_of_turn>".toList ++ templateRole message.role ++
      '\n' :: (message.content ++ "<end_of_turn>\n".toList)) ++ "<start_of_turn>model\n".toList

/-! ## The tokenizer -/

/-- The engine encoder, loaded from the blob that the vocabulary is from; a blob has no special
surfaces, and its header names the token `<bos>`. -/
structure CTokenizer (vocab : List Text) where
  merges : List Bytes
  tables : MergeTables
  built : spG4Build (vocab.map utf8) merges = some tables
  bos : Nat
  bosNamed : vocab[bos]? = some "<bos>".toList

def CTokenizer.encode {vocab : List Text} (c : CTokenizer vocab) (text : Text) : List Nat :=
  spTokenizerEncode (vocab.map utf8) c.tables [] c.bos (utf8 text)

inductive Encoder (vocab : List Text)
  | gemma4 (c : CTokenizer vocab)
  | crate (encode : Text → Except String (List Nat))
  | unsupported (typeId : Nat)

structure SptbTokenizer where
  archId : Nat
  vocab : List Text
  encoder : Encoder vocab
  /-- `thinking_enabled`. -/
  thinking : Bool

def isGemmaTurnArch (archId : Nat) : Bool := [3, 7, 11].contains archId

def isChatmlArch (archId : Nat) : Bool := [2, 6, 8].contains archId

/-- `gpt2_char_to_byte`. -/
def gpt2CharToByte (c : Char) : Option UInt8 :=
  let cp := c.toNat
  if 0x21 ≤ cp ∧ cp ≤ 0x7E ∨ 0xA1 ≤ cp ∧ cp ≤ 0xAC ∨ 0xAE ≤ cp ∧ cp ≤ 0xFF then some (.ofNat cp)
  else if 0x100 ≤ cp ∧ cp ≤ 0x120 then some (.ofNat (cp - 0x100))
  else if cp = 0x121 then some 0x7F
  else if 0x122 ≤ cp ∧ cp ≤ 0x142 then some (.ofNat (cp - 0x122 + 0x80))
  else if cp = 0x143 then some 0xAD
  else none

/-- U+2581 stands for a space. -/
def unescapeSpace (c : Char) : Char := if c = '▁' then ' ' else c

namespace SptbTokenizer

variable (tok : SptbTokenizer)

def idToBytes : List Bytes :=
  match tok.encoder with
  | .crate _ => tok.vocab.map fun surface => surface.filterMap gpt2CharToByte
  | _ => tok.vocab.map fun surface => utf8 (surface.map unescapeSpace)

def controlId (surface : Text) : Option Nat := tok.idToBytes.idxOf? (utf8 surface)

def bosId : Option Nat := tok.vocab.idxOf? "<bos>".toList

def encode (text : Text) : Except String (List Nat) :=
  match tok.encoder with
  | .gemma4 c => .ok (c.encode text)
  | .crate encode => encode text
  | .unsupported typeId => .error s!"encode not supported for tokenizer type_id={typeId}"

/-- The engine encoder puts a `<bos>` before every text; one is dropped. -/
def encodeNoBos (text : Text) : Except String (List Nat) :=
  match tok.encoder with
  | .gemma4 c =>
      let ids := c.encode text
      .ok (if tok.bosId.isSome ∧ ids.head? = tok.bosId then ids.drop 1 else ids)
  | _ => tok.encode text

/-- The turns of a prompt. -/
def turns (startTurn endTurn nl : Nat) : List Message → Except String (List Nat)
  | [] => .ok []
  | message :: rest => do
      let role ← tok.encodeNoBos (templateRole message.role)
      let content ← tok.encodeNoBos message.content
      let later ← turns startTurn endTurn nl rest
      return startTurn :: (role ++ nl :: (content ++ endTurn :: nl :: later))

/-- The thought channel behind the generation prompt of the mixture model. -/
def channel (nl : Nat) : Except String (List Nat) :=
  if tok.archId = 11 then
    match tok.controlId "<|channel>".toList, tok.controlId "<channel|>".toList with
    | some opening, some closing => do
        let thought ← tok.encodeNoBos "thought".toList
        return opening :: (thought ++ nl :: if tok.thinking then [] else [closing])
    | _, _ => .ok []
  else .ok []

def applyTemplateIds (messages : List Message) : Except String (List Nat) :=
  if isGemmaTurnArch tok.archId then
    match tok.controlId "<|turn>".toList, tok.controlId "<turn|>".toList,
      tok.controlId "\n".toList with
    | some startTurn, some endTurn, some nl => do
        let body ← tok.turns startTurn endTurn nl messages
        let model ← tok.encodeNoBos "model".toList
        let thought ← tok.channel nl
        return tok.bosId.toList ++ (body ++ startTurn :: (model ++ nl :: thought))
    | _, _, _ => tok.encode (gemma3Template messages)
  else if isChatmlArch tok.archId then tok.encode (chatmlTemplate messages)
  else .error s!"no chat template for arch_id={tok.archId}"

end SptbTokenizer

end KairosEngine.Tokenizer
