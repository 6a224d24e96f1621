import KairosEngine.Library.Backtrack
import KairosEngine.Tokenizer.Gpt2Pieces

/-!
# The pre-tokenizer as a regular expression

`next_piece` is written by hand for one ordered alternation.  The alternation is a pattern here, and
`next_piece` ends a piece where a backtracking search for it ends its first match.
-/

namespace KairosEngine.Tokenizer

open KairosEngine.Library KairosEngine.Library.Pattern

/-! ## The alternation -/

/-- A letter in either case. -/
def either (small : Nat) : Pattern Nat := one fun cp => decide (cp = small ∨ cp + 32 = small)

def quote : Pattern Nat := one fun cp => decide (cp = 0x27)

/-- `'[sS]|'[tT]|'[rR][eE]|'[vV][eE]|'[mM]|'[lL][lL]|'[dD]` -/
def contractions : Pattern Nat :=
  alt (seq quote (either 0x73)) <|
    alt (seq quote (either 0x74)) <|
      alt (seq quote (seq (either 0x72) (either 0x65))) <|
        alt (seq quote (seq (either 0x76) (either 0x65))) <|
          alt (seq quote (either 0x6D)) <|
            alt (seq quote (seq (either 0x6C) (either 0x6C))) (seq quote (either 0x64))

section Alternation

variable (tables : UnicodeTables)

/-- `[^\r\n\p{L}\p{N}]` -/
def prefixed (cp : Nat) : Bool := !(isCrLf cp || tables.isL cp || tables.isN cp)

/-- `[^\r\n\p{L}\p{N}]?\p{L}+` -/
def letters : Pattern Nat := seq (opt (one (prefixed tables))) (plus (one tables.isL))

/-- `\p{N}` -/
def number : Pattern Nat := one tables.isN

/-- ` ?[^\s\p{L}\p{N}]+[\r\n]*` -/
def others : Pattern Nat :=
  seq (opt (one fun cp => decide (cp = 0x20))) (seq (plus (one tables.isC4)) (many (one isCrLf)))

/-- `\s*[\r\n]+` -/
def lineEnds : Pattern Nat := seq (many (one UnicodeTables.isS)) (plus (one isCrLf))

/-- `\s+(?!\S)` -/
def blanksBefore : Pattern Nat :=
  seq (plus (one UnicodeTables.isS)) (notAhead (one fun cp => !UnicodeTables.isS cp))

/-- `\s+` -/
def blanks : Pattern Nat := plus (one UnicodeTables.isS)

def qwen2 : Pattern Nat :=
  alt contractions <| alt (letters tables) <| alt (number tables) <| alt (others tables) <|
    alt lineEnds (alt blanksBefore blanks)

end Alternation

/-! ## The alternatives one by one -/

variable {tables : UnicodeTables} {cps : List Nat}

theorem runLength_eq (isIn : Nat → Bool) (cps : List Nat) : runLength isIn cps = run isIn cps := rfl

theorem firstRest_either {small : Nat} (low : 0x61 ≤ small) (high : small ≤ 0x7A) (first : Nat)
    (rest : List Nat) :
    firstRest (either small) (first :: rest) = if lc first = small then some rest else none := by
  have same : (first = small ∨ first + 32 = small) ↔ lc first = small := by
    unfold lc
    split <;> omega
  simp only [either, firstRest_one_cons, decide_eq_true_eq, same]

theorem firstRest_either_nil (small : Nat) : firstRest (either small) [] = none := rfl

theorem firstRest_quote (first : Nat) (second : Pattern Nat) (rest : List Nat) :
    firstRest (seq quote second) (first :: rest) =
      if first = 0x27 then second.firstRest rest else none := by
  rw [quote, firstRest_seq_one, firstRest_one_cons]
  by_cases here : first = 0x27 <;> simp [here]

/-- One letter and then another, behind the quote. -/
theorem firstRest_pair {small final : Nat} (low : 0x61 ≤ small) (high : small ≤ 0x7A)
    (lowFinal : 0x61 ≤ final) (highFinal : final ≤ 0x7A) (second : Nat) (rest : List Nat) :
    firstRest (seq (either small) (either final)) (second :: rest) =
      if lc second = small ∧ rest.head?.any fun third => decide (lc third = final) then
        some rest.tail
      else none := by
  have split : firstRest (seq (either small) (either final)) (second :: rest) =
      (firstRest (either small) (second :: rest)).bind (either final).firstRest := firstRest_seq_one
  rw [split, firstRest_either low high]
  by_cases here : lc second = small
  · rw [if_pos here, Option.bind_some]
    cases rest with
    | nil => simp [firstRest_either_nil]
    | cons third rest => simp [firstRest_either lowFinal highFinal, here]
  · simp [here]

theorem firstRest_contractions :
    firstRest contractions cps = (alt1 cps).map fun taken => cps.drop taken := by
  cases cps with
  | nil => rfl
  | cons first rest =>
      by_cases quoted : first = 0x27
      · subst quoted
        simp only [contractions, firstRest_alt, firstRest_quote, if_true]
        cases rest with
        | nil => rfl
        | cons second rest =>
            rw [firstRest_either (by decide) (by decide), firstRest_either (by decide) (by decide),
              firstRest_pair (by decide) (by decide) (by decide) (by decide),
              firstRest_pair (by decide) (by decide) (by decide) (by decide),
              firstRest_either (by decide) (by decide),
              firstRest_pair (by decide) (by decide) (by decide) (by decide),
              firstRest_either (by decide) (by decide)]
            -- the order does not matter: the second letter tells the alternatives apart
            have long : (rest.head?.any fun third =>
                decide ((lc second = 0x72 ∨ lc second = 0x76) ∧ lc third = 0x65 ∨
                  lc second = 0x6C ∧ lc third = 0x6C)) =
                (decide (lc second = 0x72 ∨ lc second = 0x76) &&
                    rest.head?.any (fun third => decide (lc third = 0x65)) ||
                  decide (lc second = 0x6C) && rest.head?.any fun third => decide (lc third = 0x6C)) := by
              cases rest with
              | nil => simp
              | cons third rest => simp [Bool.decide_and, Bool.decide_or]
            simp only [alt1, long]
            generalize lc second = c1
            by_cases s : c1 = 0x73
            · subst s
              simp
            by_cases t : c1 = 0x74
            · subst t
              simp
            by_cases r : c1 = 0x72
            · subst r
              simp
            by_cases v : c1 = 0x76
            · subst v
              simp
            by_cases m : c1 = 0x6D
            · subst m
              simp
            by_cases l : c1 = 0x6C
            · subst l
              simp
            by_cases d : c1 = 0x64
            · subst d
              simp
            · simp [s, t, r, v, m, l, d]
      · simp only [contractions, firstRest_alt, firstRest_quote, if_neg quoted, Option.or_none]
        rw [alt1, Option.map_none]
        rintro _ rest same
        exact quoted (List.cons.inj same).1

theorem firstRest_letters :
    firstRest (letters tables) cps = (alt2 tables cps).map fun taken => cps.drop taken := by
  rw [letters, firstRest_seq_opt, firstRest_plus_one]
  cases cps with
  | nil => rfl
  | cons first rest =>
      have lead : (!isCrLf first && !tables.isL first && !tables.isN first &&
          rest.head?.any tables.isL) = true ↔
            prefixed tables first = true ∧ 0 < run tables.isL rest := by
        rw [run_pos_iff]
        simp [prefixed, and_assoc]
      rw [firstRest_seq_one, firstRest_one_cons]
      simp only [alt2, runLength_eq]
      by_cases behind : prefixed tables first = true ∧ 0 < run tables.isL rest
      · rw [lead.mpr behind, if_pos behind.1, Option.bind_some, firstRest_plus_one,
          if_pos behind.2]
        simp only [if_true, List.drop_succ_cons, List.drop_zero, if_pos behind.2, Option.map_some,
          Option.some_or]
        rw [Nat.add_comm, List.drop_succ_cons]
      · rw [eq_false_of_ne_true fun led => behind (lead.mp led)]
        have nothing : (if prefixed tables first then some rest else none).bind
            (plus (one tables.isL)).firstRest = none := by
          by_cases here : prefixed tables first = true
          · rw [if_pos here, Option.bind_some, firstRest_plus_one,
              if_neg fun run => behind ⟨here, run⟩]
          · rw [if_neg here, Option.bind_none]
        rw [nothing, Option.none_or]
        simp only [Bool.false_eq_true, if_false, List.drop_zero, Nat.zero_add, Option.map_if]

theorem firstRest_number :
    firstRest (number tables) cps = (alt3 tables cps).map fun taken => cps.drop taken := by
  unfold number alt3
  cases cps with
  | nil => rfl
  | cons first rest =>
      rw [firstRest_one_cons]
      by_cases here : tables.isN first = true <;> simp [here]

/-- The line ends behind the others are never given back. -/
theorem firstRest_othersBehind (text : List Nat) :
    firstRest (seq (plus (one tables.isC4)) (many (one isCrLf))) text =
      if 0 < run tables.isC4 text then
        some ((text.drop (run tables.isC4 text)).drop
          (run isCrLf (text.drop (run tables.isC4 text))))
      else none := by
  rw [firstRest_seq, rests_plus_one]
  cases run tables.isC4 text with
  | zero => rfl
  | succ taken =>
      rw [List.range_succ, List.reverse_append, List.reverse_singleton, List.singleton_append,
        List.map_cons, List.findSome?_cons, firstRest_many_one, if_pos (Nat.succ_pos taken)]

theorem firstRest_others :
    firstRest (others tables) cps = (alt4 tables cps).map fun taken => cps.drop taken := by
  rw [others, firstRest_seq_opt]
  cases cps with
  | nil => rfl
  | cons first rest =>
      rw [firstRest_seq_one, firstRest_one_cons]
      simp only [alt4, firstRest_othersBehind, runLength_eq, decide_eq_true_eq]
      by_cases spaced : first = 0x20
      · subst spaced
        -- a space is none of the others, so it cannot be given back
        have space : ¬ tables.isC4 0x20 = true := by
          have blank : UnicodeTables.isS 0x20 = true := by decide
          simp [UnicodeTables.isC4, blank]
        rw [run_cons_of_neg space]
        by_cases behind : 0 < run tables.isC4 rest
        · have shifted : 1 + run tables.isC4 rest = run tables.isC4 rest + 1 := Nat.add_comm _ _
          rw [if_pos rfl, Option.bind_some, if_pos behind, run_pos_iff.mp behind]
          simp [behind, shifted, Nat.succ_add]
        · have none : rest.head?.any tables.isC4 = false :=
            eq_false_of_ne_true fun here => behind (run_pos_iff.mpr here)
          rw [if_pos rfl, Option.bind_some, if_neg behind, none]
          simp
      · simp only [if_neg spaced, Option.bind_none, Option.none_or]
        simp [spaced]

/-! ## White space -/

theorem isS_of_isCrLf {cp : Nat} (line : isCrLf cp = true) : UnicodeTables.isS cp = true := by
  rcases of_decide_eq_true line with rfl | rfl
  · decide
  · decide

/-- A line end stands at an index of the text. -/
theorem run_isCrLf_pos_iff (k : Nat) :
    0 < run isCrLf (cps.drop k) ↔ isCrLf (cps.getD k 0) = true := by
  rw [run_pos_iff, List.head?_drop, List.getD_eq_getElem?_getD]
  cases cps[k]? with
  | none => simp [isCrLf]
  | some cp => rfl

/-- A line end behind the white space would belong to it. -/
theorem run_isCrLf_behind : run isCrLf (cps.drop (run UnicodeTables.isS cps)) = 0 := by
  have none := @run_drop _ cps UnicodeTables.isS _ (Nat.le_refl _)
  rw [Nat.sub_self] at none
  by_contra some
  have line := run_pos_iff.mp (Nat.pos_of_ne_zero some)
  rw [Option.any_eq_true] at line
  obtain ⟨cp, here, isLine⟩ := line
  have blank : 0 < run UnicodeTables.isS (cps.drop (run UnicodeTables.isS cps)) := by
    rw [run_pos_iff, here]
    exact isS_of_isCrLf isLine
  omega

theorem firstRest_lineEnds :
    firstRest lineEnds cps =
      (((List.range (run UnicodeTables.isS cps)).filter fun k =>
        isCrLf (cps.getD k 0)).getLast?).map fun lastnl => cps.drop (lastnl + 1) := by
  have search : ∀ k, (plus (one isCrLf)).firstRest (cps.drop k) =
      if isCrLf (cps.getD k 0) then
        some ((cps.drop k).drop (run isCrLf (cps.drop k))) else none := by
    intro k
    rw [firstRest_plus_one]
    simp only [run_isCrLf_pos_iff]
  have behind : ¬ isCrLf (cps.getD (run UnicodeTables.isS cps) 0) = true := by
    rw [← run_isCrLf_pos_iff, run_isCrLf_behind]
    exact Nat.lt_irrefl 0
  rw [lineEnds, firstRest_seq, rests_many_one, List.range_succ, List.reverse_append,
    List.reverse_singleton, List.singleton_append, List.map_cons, List.findSome?_cons,
    search, if_neg behind, List.findSome?_map]
  simp only [Function.comp_def, search]
  rw [findSome?_ite, List.getLast?_filter]
  cases found : (List.range (run UnicodeTables.isS cps)).reverse.find? fun k =>
      isCrLf (cps.getD k 0) with
  | none => rfl
  | some lastnl =>
      obtain ⟨inside, line, later⟩ := find?_reverse_range_eq_some found
      have next : run isCrLf (cps.drop (lastnl + 1)) = 0 := by
        by_cases last : lastnl + 1 = run UnicodeTables.isS cps
        · rw [last, run_isCrLf_behind]
        · have none := later (lastnl + 1) (Nat.lt_succ_self _) (by omega)
          rw [← Nat.le_zero, ← not_lt, run_isCrLf_pos_iff, none]
          nofun
      have one : run isCrLf (cps.drop lastnl) = 1 := by
        have positive := (run_isCrLf_pos_iff lastnl).mpr line
        have less := @run_drop _ (cps.drop lastnl) isCrLf 1 positive
        rw [List.drop_drop, next] at less
        omega
      rw [Option.map_some, Option.map_some, one, List.drop_drop]

/-- In front of the end of the white space there is no more white space. -/
theorem head_behind_blanks : (cps.drop (run UnicodeTables.isS cps)).head?.any UnicodeTables.isS = false := by
  have none := @run_drop _ cps UnicodeTables.isS _ (Nat.le_refl _)
  rw [Nat.sub_self] at none
  apply eq_false_of_ne_true
  intro blank
  exact Nat.ne_of_gt (run_pos_iff.mpr blank) none

theorem firstRest_blanksBefore :
    firstRest blanksBefore cps =
      if run UnicodeTables.isS cps = cps.length then (plus (one UnicodeTables.isS)).firstRest cps
      else if 2 ≤ run UnicodeTables.isS cps then some (cps.drop (run UnicodeTables.isS cps - 1))
      else none := by
  rw [blanksBefore, firstRest_seq, rests_plus_one, List.findSome?_map, firstRest_plus_one]
  have ended := @head_behind_blanks cps
  have length : run UnicodeTables.isS cps ≤ cps.length :=
    (List.takeWhile_sublist UnicodeTables.isS).length_le
  have back : ∀ taken, taken < run UnicodeTables.isS cps →
      firstRest (notAhead (one fun cp => !UnicodeTables.isS cp)) (cps.drop taken) =
        some (cps.drop taken) := by
    intro taken inside
    have blank : (cps.drop taken).head?.any UnicodeTables.isS = true := by
      rw [← run_pos_iff, run_drop (Nat.le_of_lt inside)]
      omega
    rw [firstRest_notAhead_one, if_neg]
    rw [Option.any_eq_true] at blank ⊢
    obtain ⟨cp, here, isBlank⟩ := blank
    rintro ⟨other, there, solid⟩
    cases here.symm.trans there
    simp [isBlank] at solid
  cases blanks : run UnicodeTables.isS cps with
  | zero =>
      cases cps with
      | nil => rfl
      | cons first rest => rfl
  | succ count =>
      rw [blanks] at ended length back
      rw [List.range_succ, List.reverse_append, List.reverse_singleton, List.singleton_append,
        List.findSome?_cons, Function.comp_apply, firstRest_notAhead_one]
      by_cases whole : count + 1 = cps.length
      · rw [if_pos whole, if_pos (Nat.succ_pos count), whole, List.drop_length]
        rfl
      · have solid : (cps.drop (count + 1)).head?.any (fun cp => !UnicodeTables.isS cp) = true := by
          rw [List.head?_drop, List.getElem?_eq_getElem (by omega)] at ended ⊢
          simpa using ended
        rw [if_pos solid, if_neg whole]
        cases count with
        | zero => rfl
        | succ count =>
            rw [List.range_succ, List.reverse_append, List.reverse_singleton,
              List.singleton_append, List.findSome?_cons, Function.comp_apply,
              back (count + 1) (Nat.lt_succ_self _), if_pos (by omega)]
            rfl

/-- What is left to the last three alternatives begins with white space. -/
theorem firstRest_blanks {first : Nat} {rest : List Nat} (blank : UnicodeTables.isS first = true) :
    firstRest (alt lineEnds (alt blanksBefore blanks)) (first :: rest) =
      some ((first :: rest).drop (alt5 (first :: rest))) := by
  have some_ : 0 < run UnicodeTables.isS (first :: rest) := run_pos_iff.mpr blank
  rw [firstRest_alt, firstRest_alt, firstRest_lineEnds, firstRest_blanksBefore, blanks,
    firstRest_plus_one, if_pos some_, alt5, runLength_eq]
  cases ((List.range (run UnicodeTables.isS (first :: rest))).filter fun k =>
      isCrLf ((first :: rest).getD k 0)).getLast? with
  | some lastnl => rfl
  | none =>
      rw [Option.map_none, Option.none_or]
      simp only
      by_cases whole : run UnicodeTables.isS (first :: rest) = (first :: rest).length
      · rw [if_pos whole, if_pos whole]
        rfl
      · rw [if_neg whole, if_neg whole]
        by_cases several : 2 ≤ run UnicodeTables.isS (first :: rest)
        · rw [if_pos several, if_pos several]
          rfl
        · rw [if_neg several, if_neg several]
          rfl

/-! ## Pieces -/

theorem firstRest_qwen2 (nonempty : cps ≠ []) :
    firstRest (qwen2 tables) cps = some (cps.drop (nextPiece tables cps)) := by
  obtain ⟨first, rest, rfl⟩ := List.exists_cons_of_ne_nil nonempty
  rw [qwen2, firstRest_alt, firstRest_contractions, firstRest_alt, firstRest_letters, firstRest_alt,
    firstRest_number, firstRest_alt, firstRest_others, nextPiece]
  cases contraction : alt1 (first :: rest) with
  | some taken => rfl
  | none =>
      cases letters : alt2 tables (first :: rest) with
      | some taken => rfl
      | none =>
          cases number : alt3 tables (first :: rest) with
          | some taken => rfl
          | none =>
              cases others : alt4 tables (first :: rest) with
              | some taken => rfl
              | none =>
                  simp only [Option.map_none, Option.none_or]
                  exact firstRest_blanks (isS_of_none letters number others)

/-- `next_piece` at an index of the array: where the piece ends. -/
def nextPieceAt (tables : UnicodeTables) (cps : List Nat) (i : Nat) : Nat :=
  i + nextPiece tables (cps.drop i)

/-- The pieces of the loop in `encode_text`, from an index on. -/
def piecesFrom (tables : UnicodeTables) (cps : List Nat) : Nat → Nat → List (List Nat)
  | 0, _ => []
  | fuel + 1, i =>
      if i < cps.length then
        let e := nextPieceAt tables cps i
        (cps.take e).drop i :: piecesFrom tables cps fuel e
      else []

def pieces (tables : UnicodeTables) (cps : List Nat) : List (List Nat) :=
  piecesFrom tables cps cps.length 0

theorem nextPieceAt_bounds {i : Nat} (inside : i < cps.length) :
    i < nextPieceAt tables cps i ∧ nextPieceAt tables cps i ≤ cps.length := by
  have nonempty : cps.drop i ≠ [] := by
    rw [Ne, List.drop_eq_nil_iff]
    omega
  have takes := @nextPiece_takes tables _ nonempty
  rw [List.length_drop] at takes
  unfold nextPieceAt
  omega

theorem matchEnd_qwen2 {i : Nat} (inside : i < cps.length) :
    (qwen2 tables).matchEnd cps i = some (nextPieceAt tables cps i) := by
  have nonempty : cps.drop i ≠ [] := by
    rw [Ne, List.drop_eq_nil_iff]
    omega
  have bounds := @nextPieceAt_bounds tables _ _ inside
  rw [nextPieceAt] at bounds
  rw [matchEnd, firstRest_qwen2 nonempty, Option.map_some, List.drop_drop, List.length_drop,
    nextPieceAt]
  congr 1
  omega

theorem piecesFrom_partition {fuel i : Nat} (enough : cps.length ≤ i + fuel) :
    (piecesFrom tables cps fuel i).flatten = cps.drop i ∧
      ∀ piece ∈ piecesFrom tables cps fuel i, piece ≠ [] := by
  induction fuel generalizing i with
  | zero =>
      have ended : cps.length ≤ i := enough
      rw [List.drop_of_length_le ended]
      exact ⟨rfl, nofun⟩
  | succ fuel inductionHypothesis =>
      rw [piecesFrom]
      split
      next inside =>
        obtain ⟨forward, within⟩ := @nextPieceAt_bounds tables _ _ inside
        generalize nextPieceAt tables cps i = e at forward within
        obtain ⟨rest, nonempty⟩ := @inductionHypothesis e (by omega)
        rw [List.flatten_cons, rest, List.forall_mem_cons]
        refine ⟨?_, ?_, nonempty⟩
        · have before : i ≤ (cps.take e).length := by
            rw [List.length_take]
            omega
          rw [← List.drop_append_of_le_length before, List.take_append_drop]
        · rw [Ne, List.drop_eq_nil_iff, List.length_take]
          omega
      next outside =>
        rw [List.drop_of_length_le (not_lt.mp outside)]
        exact ⟨rfl, nofun⟩

/-- Every piece ends where leftmost-first backtracking for the alternation ends its match, a piece
takes something and stays inside the text, and the pieces are the text. -/
theorem nextPieceAt_leftmostFirst (tables : UnicodeTables) (cps : List Nat) :
    (∀ i, i < cps.length →
      (qwen2 tables).matchEnd cps i = some (nextPieceAt tables cps i) ∧
        i < nextPieceAt tables cps i ∧ nextPieceAt tables cps i ≤ cps.length) ∧
      (pieces tables cps).flatten = cps ∧ ∀ piece ∈ pieces tables cps, piece ≠ [] :=
  ⟨fun _ inside => ⟨matchEnd_qwen2 inside, nextPieceAt_bounds inside⟩,
    @piecesFrom_partition tables cps cps.length 0 (Nat.le_add_left _ _)⟩

end KairosEngine.Tokenizer
