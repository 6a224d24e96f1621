import Mathlib.Data.List.Basic

/-!
# UTF-8

Texts as lists of characters, their encoding, and the two decoders: the strict one, and the one
that puts a replacement character for every maximal ill-formed part.
-/

namespace KairosEngine.Library

/-- A byte in the given range at the index. -/
def tailIn (low high : UInt8) (bytes : List UInt8) (index : Nat) : Bool :=
  match bytes[index]? with
  | some byte => decide (low ≤ byte ∧ byte ≤ high)
  | none => false

def utf8 (text : List Char) : List UInt8 := text.flatMap String.utf8EncodeChar

/-- The character the bytes begin with. -/
def utf8Head (bytes : List UInt8) : Option Char := bytes.toByteArray.utf8DecodeChar? 0

/-- The length of the ill-formed part that the bytes begin with. -/
def illFormedWidth (bytes : List UInt8) : Nat :=
  match bytes.head? with
  | none => 0
  | some lead =>
      if 0xE0 ≤ lead ∧ lead ≤ 0xEF then
        let low := if lead = 0xE0 then 0xA0 else 0x80
        let high := if lead = 0xED then 0x9F else 0xBF
        if tailIn low high bytes 1 then 2 else 1
      else if 0xF0 ≤ lead ∧ lead ≤ 0xF4 then
        let low := if lead = 0xF0 then 0x90 else 0x80
        let high := if lead = 0xF4 then 0x8F else 0xBF
        if tailIn low high bytes 1 then (if tailIn 0x80 0xBF bytes 2 then 3 else 2) else 1
      else 1

/-- The characters and ill-formed parts; `inside` bytes of the one before are still to come. -/
def decodeFrom (inside : Nat) : List UInt8 → List (Option Char)
  | [] => []
  | byte :: rest =>
      match inside with
      | left + 1 => decodeFrom left rest
      | 0 =>
          match utf8Head (byte :: rest) with
          | some c => some c :: decodeFrom (c.utf8Size - 1) rest
          | none => none :: decodeFrom (illFormedWidth (byte :: rest) - 1) rest

/-- `String::from_utf8`. -/
def fromUtf8 (bytes : List UInt8) : Option (List Char) := (decodeFrom 0 bytes).mapM id

/-- `String::from_utf8_lossy`. -/
def fromUtf8Lossy (bytes : List UInt8) : List Char :=
  (decodeFrom 0 bytes).map fun part => part.getD (Char.ofNat 0xFFFD)

/-! ## Decoding what was encoded -/

theorem utf8_cons (c : Char) (text : List Char) :
    utf8 (c :: text) = String.utf8EncodeChar c ++ utf8 text := rfl

theorem utf8_singleton (c : Char) : utf8 [c] = String.utf8EncodeChar c := List.append_nil _

theorem utf8_append (first second : List Char) : utf8 (first ++ second) = utf8 first ++ utf8 second :=
  List.flatMap_append

theorem utf8_flatten (texts : List (List Char)) : utf8 texts.flatten = (texts.map utf8).flatten := by
  induction texts with
  | nil => rfl
  | cons text texts inductionHypothesis =>
      rw [List.flatten_cons, utf8_append, inductionHypothesis, List.map_cons, List.flatten_cons]

theorem utf8Head_encoded (c : Char) (rest : List UInt8) :
    utf8Head (String.utf8EncodeChar c ++ rest) = some c := by
  rw [utf8Head, List.toByteArray_append]
  exact ByteArray.utf8DecodeChar?_utf8EncodeChar_append

theorem decodeFrom_skip (skipped rest : List UInt8) :
    decodeFrom skipped.length (skipped ++ rest) = decodeFrom 0 rest := by
  induction skipped with
  | nil => rfl
  | cons byte skipped inductionHypothesis => exact inductionHypothesis

theorem decodeFrom_encoded (c : Char) (rest : List UInt8) :
    decodeFrom 0 (String.utf8EncodeChar c ++ rest) = some c :: decodeFrom 0 rest := by
  have size := String.length_utf8EncodeChar c
  have read := utf8Head_encoded c rest
  cases encoded : String.utf8EncodeChar c with
  | nil =>
      rw [encoded, List.length_nil] at size
      exact absurd size.symm (Nat.ne_of_gt c.utf8Size_pos)
  | cons lead skipped =>
      rw [encoded, List.cons_append] at read
      rw [encoded, List.length_cons] at size
      simp only [List.cons_append, decodeFrom, read]
      rw [← size, Nat.add_sub_cancel, decodeFrom_skip]

theorem decodeFrom_utf8 (text : List Char) : decodeFrom 0 (utf8 text) = text.map some := by
  induction text with
  | nil => rfl
  | cons c text inductionHypothesis =>
      rw [utf8_cons, decodeFrom_encoded, inductionHypothesis, List.map_cons]

theorem utf8Head_eq_some {bytes : List UInt8} {c : Char} (read : utf8Head bytes = some c) :
    ∃ rest, bytes = String.utf8EncodeChar c ++ rest := by
  obtain ⟨rest, split⟩ := ByteArray.exists_of_utf8DecodeChar?_eq_some read
  refine ⟨rest.data.toList, ?_⟩
  have listed := congrArg (fun array => array.data.toList) split
  simpa only [List.data_toByteArray, ByteArray.data_append, Array.toList_append] using listed

theorem decodeFrom_eq_map_some {bytes : List UInt8} {text : List Char} :
    decodeFrom 0 bytes = text.map some ↔ bytes = utf8 text := by
  constructor
  · intro decoded
    induction text generalizing bytes with
    | nil =>
        cases bytes with
        | nil => rfl
        | cons byte rest =>
            simp only [decodeFrom] at decoded
            cases read : utf8Head (byte :: rest) with
            | none => simp [read] at decoded
            | some found => simp [read] at decoded
    | cons c text inductionHypothesis =>
        cases read : utf8Head bytes with
        | none =>
            cases bytes with
            | nil => cases decoded
            | cons byte rest =>
                simp only [decodeFrom, read, List.map_cons] at decoded
                cases decoded
        | some found =>
            obtain ⟨rest, rfl⟩ := utf8Head_eq_some read
            rw [decodeFrom_encoded, List.map_cons, List.cons.injEq, Option.some.injEq] at decoded
            rw [decoded.1, inductionHypothesis decoded.2, utf8_cons]
  · rintro rfl
    exact decodeFrom_utf8 text

theorem mapM_id_eq_some {Value : Type} {parts : List (Option Value)} {values : List Value} :
    parts.mapM id = some values ↔ parts = values.map some := by
  induction parts generalizing values with
  | nil => cases values <;> simp
  | cons part rest inductionHypothesis =>
      rw [List.mapM_cons]
      cases part with
      | none => cases values <;> simp
      | some value =>
          cases values with
          | nil => cases rest.mapM id <;> simp
          | cons head tail =>
              rw [List.map_cons, List.cons.injEq, ← inductionHypothesis]
              cases rest.mapM id <;> simp

/-- The strict decoder accepts exactly the encodings. -/
theorem fromUtf8_eq_some_iff {bytes : List UInt8} {text : List Char} :
    fromUtf8 bytes = some text ↔ bytes = utf8 text := by
  rw [fromUtf8, mapM_id_eq_some, decodeFrom_eq_map_some]

theorem fromUtf8_utf8 (text : List Char) : fromUtf8 (utf8 text) = some text :=
  fromUtf8_eq_some_iff.mpr rfl

@[simp]
theorem fromUtf8Lossy_utf8 (text : List Char) : fromUtf8Lossy (utf8 text) = text := by
  rw [fromUtf8Lossy, decodeFrom_utf8, List.map_map]
  exact List.map_id text

theorem utf8_injective : Function.Injective utf8 := by
  intro first second same
  have decoded := congrArg fromUtf8Lossy same
  rwa [fromUtf8Lossy_utf8, fromUtf8Lossy_utf8] at decoded

/-! ## The bytes of a character -/

/-- How many bytes come behind a lead byte. -/
def tailLength (lead : UInt8) : Nat :=
  if lead.toNat < 0x80 then 0
  else if lead.toNat < 0xE0 then 1
  else if lead.toNat < 0xF0 then 2
  else 3

/-- A character is a lead byte and the continuation bytes it announces; the lead byte of a character
below U+0080 is the character itself. -/
theorem utf8EncodeChar_lead (c : Char) :
    ∃ lead tail, String.utf8EncodeChar c = lead :: tail ∧ tail.length = tailLength lead ∧
      (∀ byte ∈ tail, 0x80 ≤ byte.toNat ∧ byte.toNat < 0xC0) ∧
        (lead.toNat = c.toNat ∧ c.toNat < 0x80 ∨ 0x80 ≤ c.toNat ∧ 0xC0 ≤ lead.toNat) := by
  have bound : c.toNat < 0x110000 := by
    have valid := c.valid
    rw [UInt32.isValidChar, Nat.isValidChar] at valid
    change c.val.toNat < 0x110000
    omega
  unfold String.utf8EncodeChar tailLength
  simp only [show c.val.toNat = c.toNat from rfl]
  split
  next small =>
    refine ⟨_, [], rfl, ?_, nofun, Or.inl ⟨?_, by omega⟩⟩
    · rw [UInt8.toNat_ofNat', if_pos (by omega), List.length_nil]
    · rw [UInt8.toNat_ofNat']
      omega
  next large =>
    split
    next =>
      refine ⟨_, _, rfl, ?_, ?_, ?_⟩
      · rw [UInt8.toNat_ofNat', if_neg (by omega), if_pos (by omega), List.length_singleton]
      · simp only [List.mem_cons, List.not_mem_nil, or_false, forall_eq, UInt8.toNat_ofNat']
        omega
      · rw [UInt8.toNat_ofNat']
        omega
    next =>
      split
      next =>
        refine ⟨_, _, rfl, ?_, ?_, ?_⟩
        · rw [UInt8.toNat_ofNat', if_neg (by omega), if_neg (by omega), if_pos (by omega)]
          rfl
        · simp only [List.mem_cons, List.not_mem_nil, or_false, forall_eq_or_imp, forall_eq,
            UInt8.toNat_ofNat']
          omega
        · rw [UInt8.toNat_ofNat']
          omega
      next =>
        refine ⟨_, _, rfl, ?_, ?_, ?_⟩
        · rw [UInt8.toNat_ofNat', if_neg (by omega), if_neg (by omega), if_neg (by omega)]
          rfl
        · simp only [List.mem_cons, List.not_mem_nil, or_false, forall_eq_or_imp, forall_eq,
            UInt8.toNat_ofNat']
          omega
        · rw [UInt8.toNat_ofNat']
          omega

/-- A byte below 0x80 is a whole character. -/
theorem utf8EncodeChar_ascii {c : Char} {byte : UInt8} (member : byte ∈ String.utf8EncodeChar c)
    (ascii : byte.toNat < 0x80) : byte.toNat = c.toNat ∧ String.utf8EncodeChar c = [byte] := by
  obtain ⟨lead, tail, bytes, length, continued, named⟩ := utf8EncodeChar_lead c
  rw [bytes] at member ⊢
  rcases List.mem_cons.mp member with rfl | behind
  · rw [tailLength, if_pos ascii] at length
    rw [List.length_eq_zero_iff.mp length]
    rcases named with ⟨same, _⟩ | ⟨_, large⟩
    · exact ⟨same, rfl⟩
    · omega
  · have large := (continued byte behind).1
    omega

theorem utf8EncodeChar_of_ascii {c : Char} (ascii : c.toNat < 0x80) :
    String.utf8EncodeChar c = [UInt8.ofNat c.toNat] := by
  obtain ⟨lead, tail, bytes, length, _, ⟨same, _⟩ | ⟨large, _⟩⟩ := utf8EncodeChar_lead c
  · rw [tailLength, if_pos (same ▸ ascii)] at length
    rw [bytes, List.length_eq_zero_iff.mp length, ← same, UInt8.ofNat_toNat]
  · omega

/-- A decoded character below U+0080 is one of the bytes. -/
theorem mem_of_mem_fromUtf8Lossy {bytes : List UInt8} {c : Char}
    (member : c ∈ fromUtf8Lossy bytes) (ascii : c.toNat < 0x80) :
    UInt8.ofNat c.toNat ∈ bytes := by
  have decoded : ∀ inside, some c ∈ decodeFrom inside bytes → UInt8.ofNat c.toNat ∈ bytes := by
    clear member
    induction bytes with
    | nil => exact fun inside none => absurd none List.not_mem_nil
    | cons byte rest inductionHypothesis =>
        intro inside member
        unfold decodeFrom at member
        split at member
        next => exact List.mem_cons_of_mem byte (inductionHypothesis _ member)
        next =>
          split at member
          next found read =>
            rcases List.mem_cons.mp member with same | later
            · cases same
              obtain ⟨behind, split⟩ := utf8Head_eq_some read
              rw [split, utf8EncodeChar_of_ascii ascii]
              exact List.mem_cons_self
            · exact List.mem_cons_of_mem byte (inductionHypothesis _ later)
          next =>
            rcases List.mem_cons.mp member with none | later
            · cases none
            · exact List.mem_cons_of_mem byte (inductionHypothesis _ later)
  obtain ⟨part, listed, same⟩ := List.mem_map.mp member
  cases part with
  | none =>
      subst same
      exact absurd ascii (by decide)
  | some found =>
      cases same
      exact decoded 0 listed

/-- The first character of a text can be read off its bytes. -/
theorem utf8EncodeChar_unique {first second : Char} {left right : List UInt8}
    (same : String.utf8EncodeChar first ++ left = String.utf8EncodeChar second ++ right) :
    first = second := by
  have read := utf8Head_encoded first left
  rw [same, utf8Head_encoded, Option.some.injEq] at read
  exact read.symm

/-! ## The characters before the first ill-formed part -/

def leadingSome {Value : Type} : List (Option Value) → List Value
  | some value :: rest => value :: leadingSome rest
  | _ => []

def validText (bytes : List UInt8) : List Char := leadingSome (decodeFrom 0 bytes)

/-- `valid_up_to` of the error of `str::from_utf8`. -/
def validUpTo (bytes : List UInt8) : Nat := (utf8 (validText bytes)).length

theorem decodeFrom_utf8_append (text : List Char) (rest : List UInt8) :
    decodeFrom 0 (utf8 text ++ rest) = text.map some ++ decodeFrom 0 rest := by
  induction text with
  | nil => rfl
  | cons c text inductionHypothesis =>
      rw [utf8_cons, List.append_assoc, decodeFrom_encoded, inductionHypothesis, List.map_cons,
        List.cons_append]

theorem validText_utf8_append (text : List Char) (rest : List UInt8) :
    validText (utf8 text ++ rest) = text ++ validText rest := by
  rw [validText, decodeFrom_utf8_append]
  induction text with
  | nil => rfl
  | cons c text inductionHypothesis =>
      rw [List.map_cons, List.cons_append, leadingSome, inductionHypothesis, List.cons_append]

theorem validText_of_head_none {bytes : List UInt8} (none : utf8Head bytes = none) :
    validText bytes = [] := by
  cases bytes with
  | nil => rfl
  | cons byte rest => simp only [validText, decodeFrom, none, leadingSome]

theorem utf8Head_of_validText_nil {bytes : List UInt8} (empty : validText bytes = []) :
    utf8Head bytes = none := by
  cases read : utf8Head bytes with
  | none => rfl
  | some c =>
      obtain ⟨rest, rfl⟩ := utf8Head_eq_some read
      have begins := validText_utf8_append [c] rest
      rw [utf8_singleton, empty] at begins
      cases begins

/-- The characters before the first ill-formed part, and what comes behind them. -/
theorem validText_split (bytes : List UInt8) :
    bytes = utf8 (validText bytes) ++ bytes.drop (validUpTo bytes) ∧
      validText (bytes.drop (validUpTo bytes)) = [] := by
  cases read : utf8Head bytes with
  | none =>
      have empty := validText_of_head_none read
      rw [validUpTo, empty]
      exact ⟨rfl, empty⟩
  | some c =>
      obtain ⟨rest, rfl⟩ := utf8Head_eq_some read
      have shorter : rest.length < (String.utf8EncodeChar c ++ rest).length := by
        have size := c.utf8Size_pos
        rw [List.length_append, String.length_utf8EncodeChar]
        omega
      obtain ⟨whole, stuck⟩ := validText_split rest
      have begins : validText (String.utf8EncodeChar c ++ rest) = c :: validText rest := by
        rw [← utf8_singleton, validText_utf8_append, List.singleton_append]
      have behind : (String.utf8EncodeChar c ++ rest).drop
          (validUpTo (String.utf8EncodeChar c ++ rest)) = rest.drop (validUpTo rest) := by
        rw [validUpTo, begins, utf8_cons, List.length_append, ← List.drop_drop, List.drop_left]
        rfl
      rw [behind, begins, utf8_cons, List.append_assoc, ← whole]
      exact ⟨rfl, stuck⟩
termination_by bytes.length

theorem take_validUpTo (bytes : List UInt8) :
    bytes.take (validUpTo bytes) = utf8 (validText bytes) := by
  have whole := List.take_append_drop (validUpTo bytes) bytes
  have split := (validText_split bytes).1
  exact List.append_cancel_right (whole.trans split)

theorem validUpTo_le (bytes : List UInt8) : validUpTo bytes ≤ bytes.length := by
  rw [validUpTo, ← take_validUpTo, List.length_take]
  exact Nat.min_le_right _ _

/-- What comes behind the characters may be decoded later, with the bytes that follow. -/
theorem validText_resume (bytes more : List UInt8) :
    let rest := bytes.drop (validUpTo bytes) ++ more
    validText (bytes ++ more) = validText bytes ++ validText rest ∧
      (bytes ++ more).drop (validUpTo (bytes ++ more)) = rest.drop (validUpTo rest) := by
  intro rest
  have split : bytes ++ more = utf8 (validText bytes) ++ rest := by
    rw [← List.append_assoc, ← (validText_split bytes).1]
  have text : validText (bytes ++ more) = validText bytes ++ validText rest := by
    rw [split, validText_utf8_append]
  refine ⟨text, ?_⟩
  rw [validUpTo, text, utf8_append, List.length_append, ← List.drop_drop, split, List.drop_left]
  rfl

/-- Bytes are a whole text exactly when nothing comes behind its characters. -/
theorem fromUtf8_eq_some_validText_iff {bytes : List UInt8} {text : List Char} :
    fromUtf8 bytes = some text ↔ validText bytes = text ∧ bytes.drop (validUpTo bytes) = [] := by
  rw [fromUtf8_eq_some_iff]
  constructor
  · rintro rfl
    have same : validText (utf8 text) = text := by
      have split := validText_utf8_append text []
      rwa [List.append_nil, show validText [] = [] from rfl, List.append_nil] at split
    refine ⟨same, ?_⟩
    rw [validUpTo, same, List.drop_length]
  · rintro ⟨rfl, empty⟩
    have split := (validText_split bytes).1
    rwa [empty, List.append_nil] at split

/-- The lossy decoder gives the characters and no more exactly for whole texts. -/
theorem validText_eq_lossy_iff {bytes : List UInt8} :
    validText bytes = fromUtf8Lossy bytes ↔ ∃ text, fromUtf8 bytes = some text := by
  constructor
  · intro same
    obtain ⟨split, stuck⟩ := validText_split bytes
    refine ⟨validText bytes, fromUtf8_eq_some_validText_iff.mpr ⟨rfl, ?_⟩⟩
    generalize bytes.drop (validUpTo bytes) = rest at *
    cases rest with
    | nil => rfl
    | cons byte rest =>
        have decoded := decodeFrom_utf8_append (validText bytes) (byte :: rest)
        rw [← split] at decoded
        have lengths := congrArg List.length same
        rw [fromUtf8Lossy, decoded, List.length_map, List.length_append, List.length_map] at lengths
        simp only [decodeFrom, utf8Head_of_validText_nil stuck, List.length_cons] at lengths
        omega
  · rintro ⟨text, whole⟩
    obtain ⟨same, _⟩ := fromUtf8_eq_some_validText_iff.mp whole
    rw [fromUtf8_eq_some_iff] at whole
    rw [same, whole, fromUtf8Lossy_utf8]

end KairosEngine.Library
