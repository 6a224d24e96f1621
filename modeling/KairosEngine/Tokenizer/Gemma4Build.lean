import Mathlib.Data.List.Basic

/-!
# The merge tables of `gemma4_bpe.c`

`sp_g4_build` turns the merge lines into tables keyed by token ids.  Where it accepts,
those tables rank the same pairs as the lines do, read as pairs of strings.
-/

namespace KairosEngine.Tokenizer

abbrev Bytes := List UInt8

/-- The token strings; ids are their indices.  The hash map over them keeps the first
writer of a string. -/
abbrev Vocab := List Bytes

/-- `sp_tok_vocab_lookup`. -/
def vocabLookup (vocab : Vocab) (bytes : Bytes) : Option Nat := vocab.idxOf? bytes

theorem vocabLookup_getElem {vocab : Vocab} {bytes : Bytes} {id : Nat}
    (found : vocabLookup vocab bytes = some id) : vocab[id]? = some bytes := by
  obtain ⟨below, same, _⟩ := List.idxOf?_eq_some_iff.mp found
  rw [List.getElem?_eq_getElem below, same]

theorem vocabLookup_injective {vocab : Vocab} {left right : Bytes} {id : Nat}
    (inLeft : vocabLookup vocab left = some id) (inRight : vocabLookup vocab right = some id) :
    left = right := by
  have same := vocabLookup_getElem inLeft
  rw [vocabLookup_getElem inRight, Option.some.injEq] at same
  exact same.symm

/-- The sides of a merge line, split at the first space behind its first byte; `none` for
an inert line. -/
def mergeSides : Bytes → Option (Bytes × Bytes)
  | [] => none
  | head :: tail =>
      let space := tail.idxOf 0x20
      if space + 1 < tail.length then some (head :: tail.take space, tail.drop (space + 1))
      else none

/-- The id-keyed tables. -/
structure MergeTables where
  /-- The pairs in the order they are put, each with its rank; the first writer wins. -/
  pairs : List ((Nat × Nat) × Nat)
  /-- The merged token of a rank. -/
  result : List (Option Nat)
  byteTok : List Nat
  deriving DecidableEq

/-- `g4_pair_rank`. -/
def MergeTables.pairRank (tables : MergeTables) (left right : Nat) : Option Nat :=
  tables.pairs.lookup (left, right)

/-- One merge line: its ids and the id of its result, or nothing for an inert one.  The
outer `none` is the hard error. -/
def resolveMerge (vocab : Vocab) (line : Bytes) : Option (Option ((Nat × Nat) × Nat)) :=
  match mergeSides line with
  | none => some none
  | some (left, right) => do
      let lid ← vocabLookup vocab left
      let rid ← vocabLookup vocab right
      let res ← vocabLookup vocab (left ++ right)
      return some ((lid, rid), res)

def hexUpper (nibble : Nat) : UInt8 :=
  if nibble < 10 then UInt8.ofNat (48 + nibble) else UInt8.ofNat (55 + nibble)

/-- The surface `<0xNN>` of a byte. -/
def byteSurface (byte : Nat) : Bytes :=
  [0x3C, 0x30, 0x78, hexUpper (byte / 16), hexUpper (byte % 16), 0x3E]

/-- `sp_g4_build`; an allocation failure apart. -/
def spG4Build (vocab : Vocab) (merges : List Bytes) : Option MergeTables :=
  if merges.length = 0 ∨ 0x7FFFFFFF < merges.length then
    none
  else do
    let resolved ← merges.mapM (resolveMerge vocab)
    let byteTok ← (List.range 256).mapM fun byte => vocabLookup vocab (byteSurface byte)
    return {
      pairs := resolved.zipIdx.filterMap fun entry => entry.1.map fun merge => (merge.1, entry.2)
      result := resolved.map (Option.map Prod.snd)
      byteTok }

/-! ## The tables rank pairs of strings -/

/-- The rank of a pair of strings: the first merge line with these sides. -/
def mergeRank (merges : List Bytes) (left right : Bytes) : Option Nat :=
  merges.findIdx? fun line => decide (mergeSides line = some (left, right))

/-- A table accepted for these merges. -/
structure Accepted (vocab : Vocab) (merges : List Bytes) (tables : MergeTables) : Prop where
  /-- The rank of two tokens is that of their strings. -/
  pairRank_eq : ∀ {left right lid rid}, vocabLookup vocab left = some lid →
    vocabLookup vocab right = some rid →
      tables.pairRank lid rid = mergeRank merges left right
  /-- Ranked strings are tokens, and so is their concatenation, which the rank names. -/
  resolved : ∀ {left right rank}, mergeRank merges left right = some rank →
    (vocabLookup vocab left).isSome = true ∧ (vocabLookup vocab right).isSome = true ∧
      ∃ id, vocabLookup vocab (left ++ right) = some id ∧ tables.result[rank]? = some (some id)

theorem resolveMerge_some {vocab : Vocab} {line : Bytes} {merge : (Nat × Nat) × Nat}
    (resolves : resolveMerge vocab line = some (some merge)) :
    ∃ left right, mergeSides line = some (left, right) ∧
      vocabLookup vocab left = some merge.1.1 ∧ vocabLookup vocab right = some merge.1.2 ∧
        vocabLookup vocab (left ++ right) = some merge.2 := by
  unfold resolveMerge at resolves
  split at resolves
  next => cases resolves
  next left right sides =>
    simp only [Option.bind_eq_bind, Option.bind_eq_some_iff, Option.pure_def] at resolves
    obtain ⟨lid, inLeft, rid, inRight, res, whole, same⟩ := resolves
    cases same
    exact ⟨left, right, sides, inLeft, inRight, whole⟩

/-- A resolved line has a pair of tokens as its ids exactly when it has their strings as
its sides. -/
theorem resolveMerge_pair_iff {vocab : Vocab} {line left right : Bytes} {lid rid : Nat}
    {found : Option ((Nat × Nat) × Nat)} (resolves : resolveMerge vocab line = some found)
    (inLeft : vocabLookup vocab left = some lid) (inRight : vocabLookup vocab right = some rid) :
    found.map Prod.fst = some (lid, rid) ↔ mergeSides line = some (left, right) := by
  constructor
  · intro pair
    obtain ⟨merge, rfl, ids⟩ := Option.map_eq_some_iff.mp pair
    obtain ⟨left', right', sides, leftId, rightId, _⟩ := resolveMerge_some resolves
    rw [ids] at leftId rightId
    rw [vocabLookup_injective inLeft leftId, vocabLookup_injective inRight rightId]
    exact sides
  · intro sides
    unfold resolveMerge at resolves
    rw [sides] at resolves
    simp only [inLeft, inRight, Option.bind_eq_bind, Option.bind_some, Option.bind_eq_some_iff,
      Option.pure_def] at resolves
    obtain ⟨res, _, same⟩ := resolves
    cases same
    rfl

/-- Looking up the first put of a pair finds the first line that resolves to it. -/
theorem lookup_puts (resolved : List (Option ((Nat × Nat) × Nat))) (pair : Nat × Nat)
    (start : Nat) :
    ((resolved.zipIdx start).filterMap fun entry =>
      entry.1.map fun merge => (merge.1, entry.2)).lookup pair =
      (resolved.findIdx? fun found => decide (found.map Prod.fst = some pair)).map (· + start) := by
  induction resolved generalizing start with
  | nil => rfl
  | cons head tail inductionHypothesis =>
      rw [List.zipIdx_cons, List.findIdx?_cons]
      cases head with
      | none =>
          rw [List.filterMap_cons_none rfl, inductionHypothesis, if_neg (by simp), Option.map_map]
          apply Option.map_congr
          intro rank _
          simp only [Function.comp_apply]
          omega
      | some merge =>
          simp only [List.filterMap_cons, Option.map_some, List.lookup_cons]
          by_cases same : merge.1 = pair
          · simp [same]
          · have unequal : (pair == merge.1) = false := beq_false_of_ne (Ne.symm same)
            rw [unequal, inductionHypothesis, if_neg (by simpa using same), Option.map_map]
            apply Option.map_congr
            intro rank _
            simp only [Function.comp_apply]
            omega

theorem findIdx_resolved {vocab : Vocab} {merges : List Bytes}
    {resolved : List (Option ((Nat × Nat) × Nat))}
    (resolves : merges.mapM (resolveMerge vocab) = some resolved) {left right : Bytes}
    {lid rid : Nat} (inLeft : vocabLookup vocab left = some lid)
    (inRight : vocabLookup vocab right = some rid) :
    (resolved.findIdx? fun found => decide (found.map Prod.fst = some (lid, rid))) =
      mergeRank merges left right := by
  unfold mergeRank
  induction merges generalizing resolved with
  | nil =>
      cases resolves
      rfl
  | cons line rest inductionHypothesis =>
      simp only [List.mapM_cons, Option.bind_eq_bind, Option.bind_eq_some_iff,
        Option.pure_def] at resolves
      obtain ⟨found, first, others, later, same⟩ := resolves
      cases same
      rw [List.findIdx?_cons, List.findIdx?_cons, inductionHypothesis later,
        decide_eq_decide.mpr (resolveMerge_pair_iff first inLeft inRight)]

theorem mapM_getElem {Input Output : Type} {f : Input → Option Output} {inputs : List Input}
    {outputs : List Output} (mapped : inputs.mapM f = some outputs) {index : Nat} {input : Input}
    (present : inputs[index]? = some input) :
    ∃ output, outputs[index]? = some output ∧ f input = some output := by
  induction inputs generalizing outputs index with
  | nil => cases present
  | cons head rest inductionHypothesis =>
      simp only [List.mapM_cons, Option.bind_eq_bind, Option.bind_eq_some_iff,
        Option.pure_def] at mapped
      obtain ⟨found, first, others, later, same⟩ := mapped
      cases same
      cases index with
      | zero =>
          cases present
          exact ⟨found, rfl, first⟩
      | succ index => exact inductionHypothesis later present

theorem mergeRank_line {merges : List Bytes} {left right : Bytes} {rank : Nat}
    (ranked : mergeRank merges left right = some rank) :
    ∃ line, merges[rank]? = some line ∧ mergeSides line = some (left, right) := by
  obtain ⟨below, sides, _⟩ := List.findIdx?_eq_some_iff_getElem.mp ranked
  exact ⟨merges[rank], List.getElem?_eq_getElem below, of_decide_eq_true sides⟩

theorem accepted_of_build {vocab : Vocab} {merges : List Bytes} {tables : MergeTables}
    (built : spG4Build vocab merges = some tables) : Accepted vocab merges tables := by
  unfold spG4Build at built
  split at built
  next => cases built
  next =>
    simp only [Option.bind_eq_bind, Option.bind_eq_some_iff, Option.pure_def] at built
    obtain ⟨resolved, resolves, byteTok, _, same⟩ := built
    cases same
    constructor
    · intro left right lid rid inLeft inRight
      rw [MergeTables.pairRank, lookup_puts, findIdx_resolved resolves inLeft inRight]
      simp
    · intro left right rank ranked
      obtain ⟨line, present, sides⟩ := mergeRank_line ranked
      obtain ⟨found, stored, resolvedLine⟩ := mapM_getElem resolves present
      have sidesInVocab := resolvedLine
      unfold resolveMerge at sidesInVocab
      rw [sides] at sidesInVocab
      simp only [Option.bind_eq_bind, Option.bind_eq_some_iff, Option.pure_def] at sidesInVocab
      obtain ⟨lid, inLeft, rid, inRight, res, whole, pair⟩ := sidesInVocab
      cases pair
      refine ⟨by rw [inLeft]; rfl, by rw [inRight]; rfl, res, whole, ?_⟩
      rw [List.getElem?_map, stored]
      rfl

/-- The byte tokens are the tokens with the surfaces of the bytes. -/
theorem byteTok_of_build {vocab : Vocab} {merges : List Bytes} {tables : MergeTables}
    (built : spG4Build vocab merges = some tables) {byte : Nat} (below : byte < 256) :
    ∃ id, tables.byteTok[byte]? = some id ∧ vocabLookup vocab (byteSurface byte) = some id := by
  unfold spG4Build at built
  split at built
  next => cases built
  next =>
    simp only [Option.bind_eq_bind, Option.bind_eq_some_iff, Option.pure_def] at built
    obtain ⟨resolved, _, byteTok, bytes, same⟩ := built
    cases same
    exact mapM_getElem bytes (List.getElem?_range below)

end KairosEngine.Tokenizer
