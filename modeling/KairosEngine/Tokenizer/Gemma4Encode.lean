import Mathlib.Data.List.SplitBy
import KairosEngine.Tokenizer.PieceRefinement

/-!
# `sp_g4_encode`

A text is cut at special surfaces, the rest is escaped, cut into newline runs and other pieces,
and each piece goes through the merge heap.  A token that no merge results in, and that is neither
a character, a byte surface nor a newline run, is never reached from text.
-/

namespace KairosEngine.Tokenizer

def newline : UInt8 := 0x0A

/-- The normalizer: a space becomes U+2581. -/
def escapeSpaces (text : Bytes) : Bytes :=
  text.flatMap fun byte => if byte = 0x20 then [0xE2, 0x96, 0x81] else [byte]

/-- Runs of newlines and runs of other bytes. -/
def newlineRuns (text : Bytes) : List Bytes :=
  text.splitBy fun first second => (first == newline) == (second == newline)

section Encoding

variable (vocab : Vocab) (tables : MergeTables)

/-- `g4_fragment`. -/
def g4Fragment (text : Bytes) : List Nat :=
  (newlineRuns (escapeSpaces text)).flatMap fun piece =>
    g4Piece vocab tables piece (piece.head? == some newline)

/-- The scan for special surfaces, longest first; `pending` is the text since the last one. -/
def specialScan (specials : List (Bytes × Nat)) : Nat → Bytes → Bytes → List Nat
  | 0, pending, _ => g4Fragment vocab tables pending
  | fuel + 1, pending, text =>
      match text with
      | [] => g4Fragment vocab tables pending
      | byte :: rest =>
          match specials.find? fun special => special.1 ≠ [] ∧ special.1.isPrefixOf text with
          | some (surface, id) =>
              g4Fragment vocab tables pending ++
                id :: specialScan specials fuel [] (text.drop surface.length)
          | none => specialScan specials fuel (pending ++ [byte]) rest

/-- `sp_g4_encode`, with `parse_special` set. -/
def spG4Encode (specials : List (Bytes × Nat)) (bos : Nat) (text : Bytes) : List Nat :=
  bos :: specialScan vocab tables specials text.length [] text

/-- `sp_tokenizer_encode` on the gemma4 lane. -/
def spTokenizerEncode (specials : List (Bytes × Nat)) (bos : Nat) (text : Bytes) : List Nat :=
  if text = [] then [] else spG4Encode vocab tables specials bos text

end Encoding

variable {vocab : Vocab} {tables : MergeTables} {merges : List Bytes}

/-- Without specials the scan changes nothing. -/
theorem specialScan_nil (fuel : Nat) (pending text : Bytes) (enough : text.length ≤ fuel) :
    specialScan vocab tables [] fuel pending text = g4Fragment vocab tables (pending ++ text) := by
  induction fuel generalizing pending text with
  | zero =>
      rw [List.length_eq_zero_iff.mp (Nat.le_zero.mp enough), specialScan, List.append_nil]
  | succ fuel inductionHypothesis =>
      cases text with
      | nil => rw [specialScan, List.append_nil]
      | cons byte rest =>
          have shorter : rest.length ≤ fuel := Nat.le_of_succ_le_succ enough
          rw [specialScan, List.find?_nil]
          simp only
          rw [inductionHypothesis _ _ shorter, List.append_assoc, List.singleton_append]

/-! ## Tokens that text does not reach -/

theorem utf8Chunks_short (piece : Bytes) : ∀ chunk ∈ utf8Chunks piece, chunk.length ≤ 4 := by
  induction piece using utf8Chunks.induct with
  | case1 =>
      intro chunk member
      rw [utf8Chunks] at member
      cases member
  | case2 lead rest inductionHypothesis =>
      intro chunk member
      rw [utf8Chunks] at member
      rcases List.mem_cons.mp member with rfl | later
      · have lengths : ∀ half < 16,
            [1, 1, 1, 1, 1, 1, 1, 1, 1, 1, 1, 1, 2, 2, 3, 4].getD half 1 ≤ 4 := by decide
        have short := lengths (lead.toNat / 16) (by have := lead.toNat_lt; omega)
        exact (List.length_take_le _ _).trans short
      · exact inductionHypothesis chunk later

section Merging

variable {rank : Bytes → Bytes → Option Nat} {Property : Bytes → Prop}

theorem mergeAt_mem {symbols : List Bytes} {position found : Nat}
    (ranked : rankAt rank symbols position = some found) {text : Bytes}
    (member : text ∈ mergeAt symbols position) :
    text ∈ symbols ∨ ∃ left ∈ symbols, ∃ right ∈ symbols,
      rank left right = some found ∧ text = left ++ right := by
  unfold rankAt at ranked
  simp only [Option.bind_eq_bind, Option.bind_eq_some_iff] at ranked
  obtain ⟨left, leftHere, right, rightHere, known⟩ := ranked
  rcases List.mem_or_eq_of_mem_set (List.mem_of_mem_eraseIdx member) with old | rfl
  · exact .inl old
  · apply Or.inr
    refine ⟨left, List.mem_of_getElem? leftHere, right, List.mem_of_getElem? rightHere, known, ?_⟩
    rw [List.getD_eq_getElem?_getD, List.getD_eq_getElem?_getD, leftHere, rightHere]
    rfl

/-- What the first symbols have and every merge keeps, the last symbols have. -/
theorem mergeAll_forall {symbols : List Bytes} (first : ∀ text ∈ symbols, Property text)
    (merged : ∀ left right found, Property left → Property right →
      rank left right = some found → Property (left ++ right)) :
    ∀ text ∈ mergeAll rank symbols, Property text := by
  induction symbols using mergeAll.induct rank with
  | case1 symbols found position best inductionHypothesis =>
      rw [mergeAll_of_best rank best]
      apply inductionHypothesis
      intro text member
      have ranked := bestBelow_best rank symbols symbols.length
      rw [show bestBelow rank symbols symbols.length = some (found, position) from best] at ranked
      rcases mergeAt_mem ranked.2.1 member with old | ⟨left, inLeft, right, inRight, known, rfl⟩
      · exact first text old
      · exact merged left right found (first left inLeft) (first right inRight) known
  | case2 symbols none =>
      rw [mergeAll_of_none rank none]
      exact first

/-- A symbol that no merge names is not merged. -/
theorem mem_mergeAt_of_unranked {symbols : List Bytes} {position found : Nat}
    (ranked : rankAt rank symbols position = some found) {symbol : Bytes}
    (unranked : ∀ other, rank symbol other = none ∧ rank other symbol = none)
    (member : symbol ∈ symbols) : symbol ∈ mergeAt symbols position := by
  unfold rankAt at ranked
  simp only [Option.bind_eq_bind, Option.bind_eq_some_iff] at ranked
  obtain ⟨left, leftHere, right, rightHere, known⟩ := ranked
  obtain ⟨index, inside, rfl⟩ := List.mem_iff_getElem.mp member
  have here := List.getElem?_eq_getElem inside
  have notLeft : index ≠ position := by
    rintro rfl
    rw [here, Option.some.injEq] at leftHere
    rw [← leftHere, (unranked right).1] at known
    cases known
  have notRight : index ≠ position + 1 := by
    rintro rfl
    rw [here, Option.some.injEq] at rightHere
    rw [← rightHere, (unranked left).2] at known
    cases known
  apply @List.mem_of_getElem? _ _ (if index < position then index else index - 1)
  rw [mergeAt, Library.LinkedSpans.getElem?_unlinked]
  by_cases front : index < position
  · rw [if_pos front, if_pos front.le, List.getElem?_set_ne notLeft.symm, here]
  · rw [if_neg front, if_neg (by omega), Nat.sub_add_cancel (by omega),
      List.getElem?_set_ne notLeft.symm, here]

theorem mem_mergeAll_of_unranked {symbols : List Bytes} {symbol : Bytes}
    (unranked : ∀ other, rank symbol other = none ∧ rank other symbol = none)
    (member : symbol ∈ symbols) : symbol ∈ mergeAll rank symbols := by
  induction symbols using mergeAll.induct rank with
  | case1 symbols found position best inductionHypothesis =>
      have ranked := bestBelow_best rank symbols symbols.length
      rw [show bestBelow rank symbols symbols.length = some (found, position) from best] at ranked
      rw [mergeAll_of_best rank best]
      exact inductionHypothesis (mem_mergeAt_of_unranked ranked.2.1 unranked member)
  | case2 symbols none =>
      rw [mergeAll_of_none rank none]
      exact member

theorem flatten_mergeAt {symbols : List Bytes} {position : Nat}
    (inside : position + 1 < symbols.length) :
    (mergeAt symbols position).flatten = symbols.flatten := by
  induction symbols generalizing position with
  | nil => exact absurd inside (Nat.not_lt_zero _)
  | cons first rest inductionHypothesis =>
      cases position with
      | zero =>
          obtain ⟨second, rest, rfl⟩ := List.exists_cons_of_length_pos (Nat.lt_of_succ_lt_succ inside)
          change (first ++ second) ++ rest.flatten = first ++ (second ++ rest.flatten)
          rw [List.append_assoc]
      | succ position =>
          change first ++ (mergeAt rest position).flatten = first ++ rest.flatten
          rw [inductionHypothesis (Nat.lt_of_succ_lt_succ inside)]

/-- Merging keeps the text. -/
theorem flatten_mergeAll (symbols : List Bytes) :
    (mergeAll rank symbols).flatten = symbols.flatten := by
  induction symbols using mergeAll.induct rank with
  | case1 symbols found position best inductionHypothesis =>
      rw [mergeAll_of_best rank best, inductionHypothesis,
        flatten_mergeAt (bestPair_inside rank best)]
  | case2 symbols none => rw [mergeAll_of_none rank none]

end Merging

/-- A token that neither a character, a byte surface, a newline run nor a merge makes. -/
structure OutOfReach (vocab : Vocab) (tables : MergeTables) (id : Nat) (surface : Bytes) : Prop where
  named : vocab[id]? = some surface
  long : 4 < surface.length
  notByte : ∀ byte < 256, surface ≠ byteSurface byte
  mixed : ∃ byte ∈ surface, byte ≠ newline
  unmerged : some id ∉ tables.result

namespace OutOfReach

variable {id : Nat} {surface : Bytes}

theorem of_lookup (reach : OutOfReach vocab tables id surface) {text : Bytes}
    (found : vocabLookup vocab text = some id) : text = surface := by
  have known := vocabLookup_getElem found
  rw [reach.named] at known
  exact (Option.some.inj known).symm

theorem ne_byteTok (reach : OutOfReach vocab tables id surface)
    (built : spG4Build vocab merges = some tables) (byte : UInt8) :
    tables.byteTok.getD byte.toNat 0 ≠ id := by
  intro same
  obtain ⟨other, stored, found⟩ := byteTok_of_build built byte.toNat_lt
  rw [List.getD_eq_getElem?_getD, stored, Option.getD_some] at same
  exact reach.notByte byte.toNat byte.toNat_lt (reach.of_lookup (same ▸ found)).symm

theorem notMem_plainPiece (reach : OutOfReach vocab tables id surface)
    (built : spG4Build vocab merges = some tables) (piece : Bytes) :
    id ∉ plainPiece vocab merges tables piece := by
  intro emitted
  obtain ⟨text, member, emitted⟩ := List.mem_flatMap.mp emitted
  let Origin : Bytes → Prop := fun text => text.length ≤ 4 ∨
    ∃ left right found, mergeRank merges left right = some found ∧ text = left ++ right
  have chunks : ∀ chunk ∈ utf8Chunks piece, Origin chunk := fun chunk member =>
    .inl (utf8Chunks_short piece chunk member)
  have merged : ∀ left right found, Origin left → Origin right →
      mergeRank merges left right = some found → Origin (left ++ right) :=
    fun left right found _ _ known => .inr ⟨left, right, found, known, rfl⟩
  have origin := mergeAll_forall chunks merged text member
  unfold emitText at emitted
  split at emitted
  next other found =>
    rw [List.mem_singleton] at emitted
    subst emitted
    rcases origin with short | ⟨left, right, rank, ranked, rfl⟩
    · have long := reach.long
      rw [← reach.of_lookup found] at long
      exact absurd long (Nat.not_lt.mpr short)
    · obtain ⟨_, _, result, whole, stored⟩ := (accepted_of_build built).resolved ranked
      rw [found, Option.some.injEq] at whole
      rw [← whole] at stored
      exact reach.unmerged (List.mem_of_getElem? stored)
  next =>
    obtain ⟨byte, _, same⟩ := List.mem_map.mp emitted
    exact reach.ne_byteTok built byte same

theorem notMem_g4Piece (reach : OutOfReach vocab tables id surface)
    (built : spG4Build vocab merges = some tables) {piece : Bytes} {isNlRun : Bool}
    (run : isNlRun = true → ∀ byte ∈ piece, byte = newline) :
    id ∉ g4Piece vocab tables piece isNlRun := by
  cases shortcut : (if isNlRun then vocabLookup vocab piece else none) with
  | some other =>
      have atomic : g4Piece vocab tables piece isNlRun = [other] := by
        unfold g4Piece
        rw [shortcut]
      rw [atomic, List.mem_singleton]
      rintro rfl
      split at shortcut
      next newlines =>
        obtain ⟨byte, member, different⟩ := reach.mixed
        rw [← reach.of_lookup shortcut] at member
        exact different (run newlines byte member)
      next => cases shortcut
  | none =>
      rw [g4Piece_eq_plain built]
      · exact reach.notMem_plainPiece built piece
      · intro newlines
        rwa [if_pos newlines] at shortcut

/-- A piece that begins with a newline is a run of newlines. -/
theorem newlineRuns_run {text piece : Bytes} (member : piece ∈ newlineRuns text)
    (begins : (piece.head? == some newline) = true) : ∀ byte ∈ piece, byte = newline := by
  have chained := List.isChain_of_mem_splitBy member
  cases piece with
  | nil => nofun
  | cons head rest =>
      have first : head = newline := by simpa using begins
      subst first
      clear begins member
      induction rest with
      | nil => simp
      | cons next rest inductionHypothesis =>
          rw [List.isChain_cons_cons] at chained
          have second : next = newline := by simpa using chained.1
          subst second
          have later := inductionHypothesis chained.2
          intro byte member
          rcases List.mem_cons.mp member with rfl | member
          · rfl
          · exact later byte member

theorem notMem_fragment (reach : OutOfReach vocab tables id surface)
    (built : spG4Build vocab merges = some tables) (text : Bytes) :
    id ∉ g4Fragment vocab tables text := by
  intro emitted
  obtain ⟨piece, member, emitted⟩ := List.mem_flatMap.mp emitted
  exact reach.notMem_g4Piece built (newlineRuns_run member) emitted

end OutOfReach

end KairosEngine.Tokenizer
