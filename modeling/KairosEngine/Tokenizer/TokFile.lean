import KairosEngine.Library.Attempt
import KairosEngine.Library.Cursor
import KairosEngine.Library.LittleEndian
import KairosEngine.Tokenizer.Gpt2Lane

/-!
# `sp_tokenizer_load_tokfile`

A `.sp-tokenizer` file is a header and a blob of length-prefixed strings.  Every read of the blob is
checked against the size that the header gives, and that size against the file, in `uint64_t`
arithmetic: a header whose offset and size add up to 2^64 or more puts the blob outside the buffer.
-/

namespace KairosEngine.Tokenizer

open KairosEngine.Library

/-! ## The file -/

structure TokFile where
  bytes : Bytes
  /-- `ftell` returns a `long`. -/
  fits : bytes.length < 2 ^ 63

/-- The fields of `sp_tok_header` that are used. -/
structure TokHeader where
  magic : Nat
  headerSize : Nat
  vocabSize : Nat
  bosToken : Nat
  eosToken : Nat
  padToken : Nat
  unkToken : Nat
  blobOffset : Nat
  blobSize : Nat

def TokFile.header (file : TokFile) : TokHeader where
  magic := leField 0 4 file.bytes
  headerSize := leField 8 4 file.bytes
  vocabSize := leField 16 4 file.bytes
  bosToken := leField 20 4 file.bytes
  eosToken := leField 24 4 file.bytes
  padToken := leField 28 4 file.bytes
  unkToken := leField 32 4 file.bytes
  blobOffset := leField 36 8 file.bytes
  blobSize := leField 44 8 file.bytes

/-- The file is long enough and its header passes the checks; the sum is a `uint64_t`. -/
def TokFile.HeaderOk (file : TokFile) : Prop :=
  144 ≤ file.bytes.length ∧ file.header.magic = 0x4B545053 ∧ file.header.headerSize = 128 ∧
    (file.header.blobOffset + file.header.blobSize) % 2 ^ 64 ≤ file.bytes.length ∧
      16 ≤ file.header.blobSize

instance (file : TokFile) : Decidable file.HeaderOk := by
  unfold TokFile.HeaderOk
  infer_instance

/-- The file buffer with what is in memory outside of it, by the offset from its start. -/
structure FileBuffer where
  file : TokFile
  outside : Nat → UInt8

namespace FileBuffer

variable (buf : FileBuffer)

/-- `blob + place`, as an offset from the start of the buffer. -/
def address (place : Nat) : Nat := (buf.file.header.blobOffset + place) % 2 ^ 64

def byte (place : Nat) : UInt8 :=
  (buf.file.bytes[buf.address place]?).getD (buf.outside (buf.address place))

/-- The bytes of the blob from the first on. -/
def slice (span : Nat × Nat) : Bytes :=
  (List.range span.2).map fun index => buf.byte (span.1 + index)

/-- A read of the blob that stays in the file buffer. -/
def Inside (span : Nat × Nat) : Prop :=
  ∀ index < span.2, buf.address (span.1 + index) < buf.file.bytes.length

end FileBuffer

/-! ## The loader -/

inductive TokFamily
  | gpt2Bpe
  | spm
  | gemma4Bpe
  deriving DecidableEq

/-- What is loaded; the tables of the other families are empty. -/
structure SpTokenizer where
  family : TokFamily
  tok : Vocab
  scores : Bytes
  /-- The merge lines of the GPT2 lane. -/
  merge : List Bytes
  /-- The merge tables of the gemma4 lane. -/
  g4 : Option MergeTables
  byteTok : List Int
  addBos : Bool
  bosId : Int
  eosId : Int
  padId : Int
  unkId : Int

/-- `0xFFFFFFFF` stands for an absent token. -/
def specialId (token : Nat) : Int := if token = 0xFFFFFFFF then -1 else int32 token

section Loading

variable (buf : FileBuffer)

/-- A check; where it fails, the loader returns `NULL`. -/
def require (condition : Prop) [Decidable condition] (c : Cursor) : Except Cursor Unit :=
  if condition then .ok () else .error c

/-- `tf_u32`. -/
def tfU32 (c : Cursor) : Except Cursor (Nat × Cursor) :=
  match c.advance (2 ^ 64) buf.file.header.blobSize 4 with
  | none => .error c
  | some moved => .ok (ofLe (buf.slice (c.pos, 4)), moved.read [(c.pos, 4)])

/-- A block of known length, passed over. -/
def passOver (len : Nat) (c : Cursor) : Except Cursor ((Nat × Nat) × Cursor) :=
  match c.advance (2 ^ 64) buf.file.header.blobSize len with
  | none => .error c
  | some moved => .ok ((c.pos, len), moved)

/-- The loops over the tokens and over the merges: where the strings are; they are not read yet. -/
def records : Nat → Cursor → Except Cursor (List (Nat × Nat) × Cursor)
  | 0, c => .ok ([], c)
  | count + 1, c => do
      let (L, c) ← tfU32 buf c
      let (first, c) ← passOver buf L c
      let (rest, c) ← records count c
      return (first :: rest, c)

def familyOf (typeId : Nat) (c : Cursor) : Except Cursor TokFamily :=
  match typeId with
  | 0 => .ok .spm
  | 2 => .ok .gpt2Bpe
  | 4 => .ok .gemma4Bpe
  | _ => .error c

/-- The ids of the byte tokens in the SPM lane; all of them must be there. -/
def spmByteTok (tok : Vocab) : Option (List Int) :=
  (List.range 256).mapM fun b =>
    match hmapGet tok (byteSurface b) with
    | some id => if int32 id < 0 then none else some (int32 id)
    | none => none

/-- The scores, which only the SPM lane has, and its byte tokens. -/
def loadScores (family : TokFamily) (nv : Nat) (tok : Vocab) (c : Cursor) :
    Except Cursor ((Bytes × List Int) × Cursor) :=
  if family = .spm then do
    let (block, c) ← passOver buf (nv * 4) c
    let c := c.read [block]
    match spmByteTok tok with
    | some byteTok => .ok ((buf.slice block, byteTok), c)
    | none => .error c
  else .ok (([], []), c)

/-- The merge lines.  The SPM lane does not read them; `sp_g4_build` reads no other bytes of the blob
than its lines and the tokens. -/
def loadMerges (family : TokFamily) (nm : Nat) (tok : Vocab) (c : Cursor) :
    Except Cursor ((List Bytes × Option MergeTables) × Cursor) := do
  let (lines, c) ← records buf nm c
  match family with
  | .spm => return (([], none), c)
  | .gpt2Bpe => return ((lines.map buf.slice, none), c.read lines)
  | .gemma4Bpe =>
      match spG4Build tok (lines.map buf.slice) with
      | some tables => return (([], some tables), c.read lines)
      | none => .error (c.read lines)

/-- The blob behind its magic number. -/
def loadBlob (magic : Nat) (c : Cursor) : Except Cursor (SpTokenizer × Cursor) := do
  let header := buf.file.header
  require (magic = 0x42545053) c
  let (typeId, c) ← tfU32 buf c
  let (nv, c) ← tfU32 buf c
  let (nm, c) ← tfU32 buf c
  let family ← familyOf typeId c
  require (nv ≠ 0 ∧ nv = header.vocabSize) c
  let (tokens, c) ← records buf nv c
  -- Every token is put into the map, which reads it.
  let c := c.read tokens
  let tok := tokens.map buf.slice
  let ((scores, byteTok), c) ← loadScores buf family nv tok c
  let ((merge, g4), c) ← loadMerges buf family nm tok c
  let bosId := specialId header.bosToken
  require (family = .gemma4Bpe → 0 ≤ bosId ∧ bosId < nv) c
  return ({
    family, tok, scores, merge, g4, byteTok
    addBos := decide (family = .gemma4Bpe)
    bosId
    eosId := specialId header.eosToken
    padId := specialId header.padToken
    unkId := specialId header.unkToken }, c)

/-- `sp_tokenizer_load_tokfile`, an allocation failure apart: the tokenizer or `NULL`, and what was
read through `blob`. -/
def spTokenizerLoadTokfile : Except Cursor (SpTokenizer × Cursor) := do
  require buf.file.HeaderOk ⟨0, []⟩
  let (magic, c) ← tfU32 buf ⟨0, []⟩
  loadBlob buf magic c

/-- The reads of a run, however it ends. -/
def blobReads : Except Cursor (SpTokenizer × Cursor) → List (Nat × Nat)
  | .ok (_, c) => c.reads
  | .error c => c.reads

end Loading

/-! ## What a run keeps -/

section Kept

variable {buf : FileBuffer} {Invariant : Cursor → Prop} {Fit : Nat × Nat → Prop}
  (kept : Cursor.Kept (2 ^ 64) buf.file.header.blobSize (2 ^ 34) Invariant Fit)

theorem require_ends {condition : Prop} [Decidable condition] {c : Cursor}
    (invariant : Invariant c) : Ends (require condition c) (fun _ => condition) Invariant := by
  unfold require
  split
  next holds => exact holds
  next => exact invariant

theorem familyOf_ends {typeId : Nat} {c : Cursor} (invariant : Invariant c) :
    Ends (familyOf typeId c) (fun _ => True) Invariant := by
  unfold familyOf
  split
  case h_4 => exact invariant
  all_goals trivial

include kept

theorem passOver_ends {len : Nat} {c : Cursor} (below : len < 2 ^ 34) (invariant : Invariant c) :
    Ends (passOver buf len c) (fun result => Fit result.1 ∧ Invariant result.2) Invariant := by
  unfold passOver
  split
  next => exact invariant
  next moved step =>
    obtain ⟨later, fit⟩ := kept.advance c len moved below invariant step
    exact ⟨fit, later⟩

theorem tfU32_ends {c : Cursor} (invariant : Invariant c) :
    Ends (tfU32 buf c) (fun result => result.1 < 2 ^ 32 ∧ Invariant result.2) Invariant := by
  unfold tfU32
  split
  next => exact invariant
  next moved step =>
    obtain ⟨later, fit⟩ := kept.advance c 4 moved (by decide) invariant step
    have value := ofLe_lt (buf.slice (c.pos, 4))
    rw [FileBuffer.slice, List.length_map, List.length_range] at value
    exact ⟨value, kept.read moved _ later (by simpa using fit)⟩

theorem records_ends (count : Nat) {c : Cursor} (invariant : Invariant c) :
    Ends (records buf count c)
      (fun result => (∀ span ∈ result.1, Fit span) ∧ Invariant result.2) Invariant := by
  induction count generalizing c with
  | zero => exact ⟨nofun, invariant⟩
  | succ count inductionHypothesis =>
      rw [records]
      apply (tfU32_ends kept invariant).bind
      rintro ⟨L, c⟩ ⟨below, invariant⟩
      apply (passOver_ends kept (by omega : L < 2 ^ 34) invariant).bind
      rintro ⟨first, c⟩ ⟨fit, invariant⟩
      apply (inductionHypothesis invariant).bind
      rintro ⟨rest, c⟩ ⟨fits, invariant⟩
      exact ⟨List.forall_mem_cons.mpr ⟨fit, fits⟩, invariant⟩

theorem loadScores_ends {family : TokFamily} {nv : Nat} {tok : Vocab} {c : Cursor}
    (below : nv < 2 ^ 32) (invariant : Invariant c) :
    Ends (loadScores buf family nv tok c) (fun result => Invariant result.2) Invariant := by
  unfold loadScores
  split
  next =>
    apply (passOver_ends kept (by omega : nv * 4 < 2 ^ 34) invariant).bind
    rintro ⟨block, c⟩ ⟨fit, invariant⟩
    have read := kept.read c [block] invariant (by simpa using fit)
    simp only
    split
    next => exact read
    next => exact read
  next => exact invariant

theorem loadMerges_ends {family : TokFamily} {nm : Nat} {tok : Vocab} {c : Cursor}
    (invariant : Invariant c) :
    Ends (loadMerges buf family nm tok c) (fun result => Invariant result.2) Invariant := by
  unfold loadMerges
  apply (records_ends kept nm invariant).bind
  rintro ⟨lines, c⟩ ⟨fits, invariant⟩
  have read := kept.read c lines invariant fits
  cases family with
  | spm => exact invariant
  | gpt2Bpe => exact read
  | gemma4Bpe =>
      simp only
      split
      next => exact read
      next => exact read

theorem loadBlob_ends {magic : Nat} {c : Cursor} (invariant : Invariant c) :
    Ends (loadBlob buf magic c) (fun result => Invariant result.2) Invariant := by
  unfold loadBlob
  apply (require_ends invariant).bind
  intro _ _
  apply (tfU32_ends kept invariant).bind
  rintro ⟨typeId, c⟩ ⟨_, invariant⟩
  apply (tfU32_ends kept invariant).bind
  rintro ⟨nv, c⟩ ⟨below, invariant⟩
  apply (tfU32_ends kept invariant).bind
  rintro ⟨nm, c⟩ ⟨_, invariant⟩
  apply (familyOf_ends invariant).bind
  intro family _
  apply (require_ends invariant).bind
  intro _ _
  apply (records_ends kept nv invariant).bind
  rintro ⟨tokens, c⟩ ⟨fits, invariant⟩
  have read := kept.read c tokens invariant fits
  apply (loadScores_ends kept below read).bind
  rintro ⟨⟨scores, byteTok⟩, c⟩ invariant
  apply (loadMerges_ends kept invariant).bind
  rintro ⟨⟨merge, g4⟩, c⟩ invariant
  apply (require_ends invariant).bind
  intro _ _
  exact invariant

end Kept

/-! ## Reads inside the buffer -/

/-- What holds of the reads at both ends of a run. -/
theorem blobReads_of_ends {result : Except Cursor (SpTokenizer × Cursor)}
    {Holds : List (Nat × Nat) → Prop}
    (ends : Ends result (fun loaded => Holds loaded.2.reads) (fun c => Holds c.reads)) :
    Holds (blobReads result) := by
  cases result with
  | ok loaded => exact ends
  | error c => exact ends

variable {buf : FileBuffer}

/-- A blob that ends in the file is in the buffer. -/
theorem inside_of_within {span : Nat × Nat}
    (blobInside : buf.file.header.blobOffset + buf.file.header.blobSize ≤ buf.file.bytes.length)
    (within : span.1 + span.2 ≤ buf.file.header.blobSize) : buf.Inside span := by
  intro index below
  have fits := buf.file.fits
  unfold FileBuffer.address
  rw [Nat.mod_eq_of_lt (by omega)]
  omega

/-- Unless the offset and the size of an accepted header add up to 2^64 or more, every read through
`blob` is in the file buffer. -/
theorem blobReads_inside
    (noWrap : buf.file.HeaderOk → buf.file.header.blobOffset + buf.file.header.blobSize < 2 ^ 64) :
    ∀ span ∈ blobReads (spTokenizerLoadTokfile buf), buf.Inside span := by
  apply @blobReads_of_ends _ fun reads => ∀ span ∈ reads, buf.Inside span
  unfold spTokenizerLoadTokfile
  have start : ∀ span ∈ (⟨0, []⟩ : Cursor).reads, buf.Inside span := nofun
  apply (@require_ends (fun c => ∀ span ∈ c.reads, buf.Inside span) _ _ _ start).bind
  intro _ headerOk
  have sum := headerOk.2.2.2.1
  rw [Nat.mod_eq_of_lt (noWrap headerOk)] at sum
  have inside : ∀ c : Cursor, c.Within buf.file.header.blobSize →
      ∀ span ∈ c.reads, buf.Inside span :=
    fun c within span member => inside_of_within sum (within.reads_le span member)
  have small : buf.file.header.blobSize + 2 ^ 34 ≤ 2 ^ 64 := by
    have fits := buf.file.fits
    omega
  have kept := Cursor.within_kept small
  have run := (tfU32_ends kept Cursor.within_start).bind fun first ends =>
    @loadBlob_ends buf _ _ kept first.1 first.2 ends.2
  exact run.mono (fun loaded => inside loaded.2) inside

/-- The header with the given offset and size of the blob, and one token. -/
def sampleHeader (offset size : Nat) : Bytes :=
  toLe 4 0x4B545053 ++ toLe 4 0 ++ toLe 4 128 ++ toLe 4 2 ++ toLe 4 1 ++
    (List.replicate 4 (toLe 4 0xFFFFFFFF)).flatten ++ toLe 8 offset ++ toLe 8 size ++
      List.replicate 76 0

/-- A blob with the token `a` and no merges. -/
def sampleFile : TokFile where
  bytes := sampleHeader 128 21 ++
    (toLe 4 0x42545053 ++ toLe 4 2 ++ toLe 4 1 ++ toLe 4 0 ++ toLe 4 1 ++ [0x61])
  fits := by decide +kernel

theorem blobReads_inside_sample :
    blobReads (spTokenizerLoadTokfile ⟨sampleFile, fun _ => 0⟩) =
        [(0, 4), (4, 4), (8, 4), (12, 4), (16, 4), (20, 1)] ∧
      ∀ span ∈ blobReads (spTokenizerLoadTokfile ⟨sampleFile, fun _ => 0⟩),
        FileBuffer.Inside ⟨sampleFile, fun _ => 0⟩ span :=
  ⟨by decide +kernel, @blobReads_inside ⟨sampleFile, fun _ => 0⟩ fun _ => by decide +kernel⟩

/-- An accepted header whose offset lies behind the file puts the magic number of the blob there. -/
theorem blobReads_escape (headerOk : buf.file.HeaderOk)
    (behind : buf.file.bytes.length ≤ buf.file.header.blobOffset) :
    ∃ span ∈ blobReads (spTokenizerLoadTokfile buf), ¬ buf.Inside span := by
  have size : ¬ buf.file.header.blobSize < (0 + 4) % 2 ^ 64 := by
    have large := headerOk.2.2.2.2
    omega
  have first : tfU32 buf ⟨0, []⟩ = .ok (ofLe (buf.slice (0, 4)), ⟨4, [(0, 4)]⟩) := by
    unfold tfU32 Cursor.advance
    rw [if_neg size]
    rfl
  have run := @loadBlob_ends buf _ _ (Cursor.mem_kept (0, 4)) (ofLe (buf.slice (0, 4)))
    ⟨4, [(0, 4)]⟩ (List.mem_singleton_self _)
  have whole : spTokenizerLoadTokfile buf =
      loadBlob buf (ofLe (buf.slice (0, 4))) ⟨4, [(0, 4)]⟩ := by
    unfold spTokenizerLoadTokfile require
    rw [if_pos headerOk, first]
    rfl
  refine ⟨(0, 4), ?_, ?_⟩
  · rw [whole]
    exact @blobReads_of_ends _ (fun reads => (0, 4) ∈ reads) run
  · intro inside
    have below := inside 0 (by decide)
    have field : buf.file.header.blobOffset < 2 ^ 64 := leField_lt 36 8 buf.file.bytes
    simp only [FileBuffer.address, Nat.add_zero] at below
    rw [Nat.mod_eq_of_lt field] at below
    exact absurd below (Nat.not_lt.mpr behind)

/-- A blob 16 bytes before the buffer. -/
def wrappedFile : TokFile where
  bytes := sampleHeader (2 ^ 64 - 16) 16 ++ List.replicate 16 0
  fits := by decide +kernel

theorem blobReads_outside :
    (0, 4) ∈ blobReads (spTokenizerLoadTokfile ⟨wrappedFile, fun _ => 0⟩) ∧
      ¬ FileBuffer.Inside ⟨wrappedFile, fun _ => 0⟩ (0, 4) := by
  refine ⟨by decide +kernel, ?_⟩
  intro inside
  exact absurd (inside 0 (by decide)) (by decide +kernel)

end KairosEngine.Tokenizer
