import KairosEngine.Swarm.Objects

/-!
# Canonical bodies

`norm` replaces the line ends of a body in one pass, and reading the stored text back is one more.
A carriage return that stands before a replaced line end is left for the second pass.
-/

namespace KairosEngine.Swarm

open KairosEngine.Library KairosEngine.Daemon

/-! ## One pass over the line ends -/

theorem unixLines_return (rest : Text) : unixLines ('\r' :: '\n' :: rest) = '\n' :: unixLines rest :=
  rfl

theorem unixLines_append {first second : Text}
    (apart : first.getLast? = some '\r' → second.head? ≠ some '\n') :
    unixLines (first ++ second) = unixLines first ++ unixLines second := by
  induction first using unixLines.induct with
  | case1 rest inductionHypothesis =>
      have later : rest.getLast? = some '\r' → second.head? ≠ some '\n' := by
        intro last
        apply apart
        rw [List.getLast?_cons_cons, List.getLast?_cons, last]
        rfl
      rw [List.cons_append, List.cons_append, unixLines_return, unixLines_return, List.cons_append,
        inductionHypothesis later]
  | case2 c rest single inductionHypothesis =>
      cases rest with
      | nil =>
          have kept : c = '\r' → second.head? ≠ some '\n' := fun here => apart (congrArg some here)
          rw [List.singleton_append, unixLines_cons kept, unixLines_cons (fun _ => by simp)]
          rfl
      | cons next rest =>
          have kept : c = '\r' → (some next : Option Char) ≠ some '\n' := by
            intro here newline
            exact single rest here (by rw [Option.some.inj newline])
          rw [List.getLast?_cons_cons] at apart
          rw [List.cons_append, unixLines_cons kept, unixLines_cons kept, inductionHypothesis apart,
            List.cons_append]
  | case3 => rfl

theorem mem_of_mem_unixLines {c : Char} {text : Text} (member : c ∈ unixLines text) : c ∈ text := by
  induction text using unixLines.induct with
  | case1 rest inductionHypothesis =>
      rw [unixLines_return] at member
      rcases List.mem_cons.mp member with rfl | later
      · simp
      · simp [inductionHypothesis later]
  | case2 head rest single inductionHypothesis =>
      rw [unixLines] at member
      · rcases List.mem_cons.mp member with rfl | later
        · exact List.mem_cons_self
        · exact List.mem_cons_of_mem _ (inductionHypothesis later)
      · exact single
  | case3 => cases member

theorem mem_unixLines {c : Char} {text : Text} (member : c ∈ text) (other : c ≠ '\r') :
    c ∈ unixLines text := by
  induction text using unixLines.induct with
  | case1 rest inductionHypothesis =>
      rw [unixLines_return]
      rcases List.mem_cons.mp ((List.mem_cons.mp member).resolve_left other) with rfl | later
      · exact List.mem_cons_self
      · exact List.mem_cons_of_mem _ (inductionHypothesis later)
  | case2 head rest single inductionHypothesis =>
      rw [unixLines]
      · rcases List.mem_cons.mp member with rfl | later
        · exact List.mem_cons_self
        · exact List.mem_cons_of_mem _ (inductionHypothesis later)
      · exact single
  | case3 => cases member

theorem unixLines_length_le (text : Text) : (unixLines text).length ≤ text.length := by
  induction text using unixLines.induct with
  | case1 rest inductionHypothesis =>
      rw [unixLines_return]
      simp only [List.length_cons]
      omega
  | case2 head rest single inductionHypothesis =>
      rw [unixLines]
      · exact Nat.succ_le_succ inductionHypothesis
      · exact single
  | case3 => exact Nat.le_refl 0

/-- A text stays as it is unless a line end is in it. -/
theorem unixLines_eq_self_iff {text : Text} :
    unixLines text = text ↔ ¬ ∃ before behind, text = before ++ '\r' :: '\n' :: behind := by
  constructor
  · rintro same ⟨before, behind, rfl⟩
    have length := congrArg List.length same
    rw [unixLines_append (fun _ => by simp), unixLines_return] at length
    have first := unixLines_length_le before
    have second := unixLines_length_le behind
    simp only [List.length_append, List.length_cons] at length
    omega
  · intro none
    induction text using unixLines.induct with
    | case1 rest inductionHypothesis => exact absurd ⟨[], rest, rfl⟩ none
    | case2 head rest single inductionHypothesis =>
        rw [unixLines]
        · rw [inductionHypothesis]
          rintro ⟨before, behind, rfl⟩
          exact none ⟨head :: before, behind, rfl⟩
        · exact single
    | case3 => rfl

theorem unixLines_eq_newline {text behind : Text} (found : unixLines text = '\n' :: behind) :
    text = '\n' :: text.tail ∨ ∃ back, text = '\r' :: '\n' :: back ∧ unixLines back = behind := by
  cases text using unixLines.fun_cases with
  | case1 rest => exact Or.inr ⟨rest, rfl, (List.cons.inj found).2⟩
  | case2 head rest single =>
      rw [unixLines] at found
      · rw [(List.cons.inj found).1]
        exact Or.inl rfl
      · exact single
  | case3 => cases found

/-- A line end in the result comes from a carriage return before a replaced one. -/
theorem unixLines_eq_append_iff {text before behind : Text} :
    unixLines text = before ++ '\r' :: '\n' :: behind ↔
      ∃ front back, text = front ++ '\r' :: '\r' :: '\n' :: back ∧ unixLines front = before ∧
        unixLines back = behind := by
  constructor
  · intro found
    induction text using unixLines.induct generalizing before with
    | case1 rest inductionHypothesis =>
        rw [unixLines_return] at found
        cases before with
        | nil => cases found
        | cons head before =>
            obtain ⟨rfl, later⟩ := List.cons.inj found
            obtain ⟨front, back, rfl, left, right⟩ := inductionHypothesis later
            exact ⟨'\r' :: '\n' :: front, back, rfl, congrArg (List.cons '\n') left, right⟩
    | case2 head rest single inductionHypothesis =>
        rw [unixLines] at found
        · cases before with
          | nil =>
              obtain ⟨rfl, later⟩ := List.cons.inj found
              rcases unixLines_eq_newline later with newline | ⟨back, rfl, right⟩
              · exact (single rest.tail rfl newline).elim
              · exact ⟨[], back, rfl, rfl, right⟩
          | cons first before =>
              obtain ⟨rfl, later⟩ := List.cons.inj found
              obtain ⟨front, back, rfl, left, right⟩ := inductionHypothesis later
              refine ⟨head :: front, back, rfl, ?_, right⟩
              rw [unixLines_cons, left]
              intro here newline
              cases front with
              | nil => cases newline
              | cons next front => exact single _ here (by rw [Option.some.inj newline]; rfl)
        · exact single
    | case3 => simp [unixLines] at found
  · rintro ⟨front, back, rfl, rfl, rfl⟩
    rw [unixLines_append (fun _ => by simp), unixLines_cons (fun _ => by simp), unixLines_return]

/-! ## Margins -/

section Margins

variable {tables : Unicode}

theorem trim_append_margins {left text right : Text}
    (leading : ∀ c ∈ left, tables.isWhitespace c = true)
    (trailing : ∀ c ∈ right, tables.isWhitespace c = true) (trimmed : Trimmed tables text) :
    tables.trim (left ++ (text ++ right)) = text := by
  have back : ∀ c ∈ right.reverse, tables.isWhitespace c = true := fun c member =>
    trailing c (List.mem_reverse.mp member)
  rw [Unicode.trim, List.dropWhile_append_of_pos leading]
  cases text with
  | nil =>
      rw [List.nil_append, List.dropWhile_eq_nil_iff.mpr trailing]
      rfl
  | cons c rest =>
      have solid : ¬ tables.isWhitespace c = true := by
        rw [trimmed c (.inl rfl)]
        exact Bool.false_ne_true
      have whole := trim_of_trimmed trimmed
      rw [Unicode.trim, List.dropWhile_cons_of_neg solid] at whole
      rw [List.cons_append, List.dropWhile_cons_of_neg solid, ← List.cons_append,
        List.reverse_append, List.dropWhile_append_of_pos back, whole]

variable (newline : tables.isWhitespace '\n' = true) (carriage : tables.isWhitespace '\r' = true)

include newline carriage

theorem trimmed_unixLines {text : Text} (trimmed : Trimmed tables text) :
    Trimmed tables (unixLines text) := by
  have solid : ∀ {c blank}, tables.isWhitespace c = false → tables.isWhitespace blank = true →
      c ≠ blank := by
    rintro c blank not_blank is_blank rfl
    cases is_blank.symm.trans not_blank
  rintro c (first | last)
  · cases text with
    | nil => cases first
    | cons head rest =>
        have kept := trimmed head (.inl rfl)
        rw [unixLines_cons fun here => absurd here (solid kept carriage)] at first
        rw [← Option.some.inj first]
        exact kept
  · rcases List.eq_nil_or_concat' text with rfl | ⟨front, final, rfl⟩
    · cases last
    · have kept := trimmed final (.inr List.getLast?_concat)
      have apart : front.getLast? = some '\r' → [final].head? ≠ some '\n' := by
        rintro - here
        exact solid kept newline (Option.some.inj here)
      have single : unixLines [final] = [final] := unixLines_cons fun _ => by simp
      rw [unixLines_append apart, single, List.getLast?_concat] at last
      rw [← Option.some.inj last]
      exact kept

/-- The line ends in the margins of a text leave the rest alone. -/
theorem trim_unixLines (text : Text) :
    tables.trim (unixLines text) = unixLines (tables.trim text) := by
  obtain ⟨left, right, split, leading, trailing⟩ := tables.trim_margins text
  have trimmed : Trimmed tables (tables.trim text) := trim_trimmed text
  have inner := trimmed_unixLines newline carriage trimmed
  have blank : ∀ {margin : Text}, (∀ c ∈ margin, tables.isWhitespace c = true) →
      ∀ c ∈ unixLines margin, tables.isWhitespace c = true := fun margin c member =>
    margin c (mem_of_mem_unixLines member)
  rw [List.append_assoc] at split
  generalize tables.trim text = whole at split trimmed inner
  subst split
  have behind : unixLines (whole ++ right) = unixLines whole ++ unixLines right := by
    apply unixLines_append
    intro last
    cases carriage.symm.trans (trimmed '\r' (.inr last))
  cases whole with
  | nil =>
      have outside : ∀ c ∈ left ++ right, tables.isWhitespace c = true := by
        intro c member
        exact (List.mem_append.mp member).elim (leading c) (trailing c)
      have none : ∀ c ∈ ([] : Text), tables.isWhitespace c = true := nofun
      have all := trim_append_margins (blank outside) none inner
      rw [← all]
      simp [unixLines]
  | cons head rest =>
      have front : unixLines (left ++ (head :: rest ++ right)) =
          unixLines left ++ unixLines (head :: rest ++ right) := by
        apply unixLines_append
        intro _ first
        cases newline.symm.trans (trimmed '\n' (.inl first))
      rw [front, behind, trim_append_margins (blank leading) (blank trailing) inner]

omit newline carriage in
theorem trim_contains {text before behind : Text} (split : text = before ++ '\r' :: '\n' :: behind)
    (left : ∃ c ∈ before, tables.isWhitespace c = false)
    (right : ∃ c ∈ behind, tables.isWhitespace c = false) :
    ∃ front back, tables.trim text = front ++ '\r' :: '\n' :: back := by
  obtain ⟨leading, trailing, whole, blankLeft, blankRight⟩ := tables.trim_margins text
  have outside : ∀ {margin part : Text}, (∀ c ∈ margin, tables.isWhitespace c = true) →
      (∃ c ∈ part, tables.isWhitespace c = false) → ¬ part ⊆ margin := by
    rintro margin part blank ⟨c, member, solid⟩ inside
    cases (blank c (inside member)).symm.trans solid
  have whole : before ++ '\r' :: '\n' :: behind = leading ++ (tables.trim text ++ trailing) := by
    rw [← split, ← List.append_assoc]
    exact whole
  rcases List.append_eq_append_iff.mp whole with ⟨more, early, -⟩ | ⟨more, early, late⟩
  · refine absurd (fun c member => ?_) (outside blankLeft left)
    rw [early]
    exact List.mem_append_left _ member
  · have late : tables.trim text ++ trailing = (more ++ ['\r', '\n']) ++ behind := by
      rw [late, List.append_assoc]
      rfl
    rcases List.append_eq_append_iff.mp late with ⟨rest, -, here⟩ | ⟨rest, here, -⟩
    · refine absurd (fun c member => ?_) (outside blankRight right)
      rw [here]
      exact List.mem_append_right _ member
    · exact ⟨more, rest, by rw [here, List.append_assoc]; rfl⟩

end Margins

/-! ## Bodies that one pass does not settle -/

/-- Between two characters that are no white space a carriage return stands before a line end. -/
def LeavesReturn (tables : Unicode) (body : Text) : Prop :=
  ∃ before behind, body = before ++ '\r' :: '\r' :: '\n' :: behind ∧
    (∃ c ∈ before, tables.isWhitespace c = false) ∧ ∃ c ∈ behind, tables.isWhitespace c = false

section Bodies

variable {tables : Unicode}
variable (newline : tables.isWhitespace '\n' = true) (carriage : tables.isWhitespace '\r' = true)

include newline carriage

theorem solid_ne {c : Char} (solid : tables.isWhitespace c = false) : c ≠ '\r' ∧ c ≠ '\n' := by
  constructor
  · rintro rfl
    cases carriage.symm.trans solid
  · rintro rfl
    cases newline.symm.trans solid

theorem settled_iff (body : Text) :
    unixLines (tables.trim (unixLines body)) = tables.trim (unixLines body) ↔
      ¬ LeavesReturn tables body := by
  rw [unixLines_eq_self_iff, not_iff_not]
  constructor
  · rintro ⟨before, behind, found⟩
    have trimmed : Trimmed tables (tables.trim (unixLines body)) := trim_trimmed _
    obtain ⟨left, right, split, -, -⟩ := tables.trim_margins (unixLines body)
    rw [found] at trimmed split
    have whole : unixLines body = (left ++ before) ++ '\r' :: '\n' :: (behind ++ right) := by
      rw [split]
      simp
    obtain ⟨front, back, rfl, lineFront, lineBack⟩ := unixLines_eq_append_iff.mp whole
    refine ⟨front, back, rfl, ?_, ?_⟩
    · cases before with
      | nil => cases carriage.symm.trans (trimmed '\r' (.inl rfl))
      | cons c before =>
          refine ⟨c, mem_of_mem_unixLines ?_, trimmed c (.inl rfl)⟩
          rw [lineFront]
          simp
    · rcases List.eq_nil_or_concat' behind with rfl | ⟨behind, c, rfl⟩
      · cases newline.symm.trans (trimmed '\n' (.inr (by simp)))
      · have ended : before ++ '\r' :: '\n' :: (behind ++ [c]) =
            (before ++ '\r' :: '\n' :: behind) ++ [c] := by simp
        rw [ended] at trimmed
        refine ⟨c, mem_of_mem_unixLines ?_, trimmed c (.inr List.getLast?_concat)⟩
        rw [lineBack]
        simp
  · rintro ⟨before, behind, rfl, ⟨c, left, solidLeft⟩, d, right, solidRight⟩
    apply trim_contains (unixLines_eq_append_iff.mpr ⟨before, behind, rfl, rfl, rfl⟩)
    · exact ⟨c, mem_unixLines left (solid_ne newline carriage solidLeft).1, solidLeft⟩
    · exact ⟨d, mem_unixLines right (solid_ne newline carriage solidRight).1, solidRight⟩

theorem norm_unixLines (body : Text) :
    norm tables (unixLines body) = unixLines (tables.trim (unixLines body)) ++ ['\n'] := by
  rw [norm, trim_unixLines newline carriage]

theorem norm_norm (body : Text) :
    norm tables (norm tables body) = unixLines (tables.trim (unixLines body)) ++ ['\n'] := by
  have margin : ∀ c ∈ ['\n'], tables.isWhitespace c = true := by
    intro c member
    rw [List.mem_singleton.mp member]
    exact newline
  have inner : tables.trim (tables.trim (unixLines body) ++ ['\n']) =
      tables.trim (unixLines body) :=
    @trim_append_margins tables [] _ ['\n'] nofun margin (trim_trimmed _)
  rw [norm, norm, trim_unixLines newline carriage, inner]

end Bodies

/-! ## Reading a stored object back -/

/-- What is kept of a line is all of it, or all but a carriage return at its end. -/
theorem unixLines_line {line : Text} (single : '\n' ∉ line) :
    ∃ kept, kept <+: line ∧ ∀ rest, unixLines (line ++ '\n' :: rest) = kept ++ '\n' :: unixLines rest := by
  have plain : ∀ {text : Text}, text <+: line → unixLines text = text := by
    intro text front
    rw [unixLines_eq_self_iff]
    rintro ⟨before, behind, rfl⟩
    exact single (front.subset (by simp))
  by_cases return_ : line.getLast? = some '\r'
  · obtain ⟨kept, rfl⟩ := List.getLast?_eq_some_iff.mp return_
    refine ⟨kept, List.prefix_append _ _, fun rest => ?_⟩
    rw [List.append_assoc, List.singleton_append, unixLines_append fun _ => by simp,
      unixLines_return, plain (List.prefix_append _ _)]
  · refine ⟨line, List.prefix_rfl, fun rest => ?_⟩
    rw [unixLines_append fun last => absurd last return_, plain List.prefix_rfl,
      unixLines_cons fun here => by cases here]

/-- The lines of a frontmatter block. -/
def FrontLine (line : Text) : Prop := '\n' ∉ line ∧ ¬ "---".toList <+: line

/-- A stored object without the line in front of the block. -/
def storedBlock (lines : List Text) (body : Text) : Text :=
  ['\n'].intercalate lines ++ ("\n---\n".toList ++ body)

def storedText (lines : List Text) (body : Text) : Text :=
  "---\n".toList ++ storedBlock lines body

theorem cutAt_line {line : Text} (single : '\n' ∉ line) (rest : Text) :
    cutAt "\n---".toList (line ++ '\n' :: rest) =
      (cutAt "\n---".toList ('\n' :: rest)).map fun cut => (line ++ cut.1, cut.2) := by
  induction line with
  | nil => simp
  | cons c line inductionHypothesis =>
      rw [List.mem_cons, not_or] at single
      have skipped : stripPrefix "\n---".toList (c :: (line ++ '\n' :: rest)) = none := by
        simp [stripPrefix, single.1]
      rw [List.cons_append, cutAt, skipped]
      simp only
      rw [inductionHypothesis single.2, Option.map_map]
      rfl

theorem cutAt_unmarked {rest : Text} (unmarked : ¬ "---".toList <+: rest) :
    cutAt "\n---".toList ('\n' :: rest) =
      (cutAt "\n---".toList rest).map fun cut => ('\n' :: cut.1, cut.2) := by
  have skipped : stripPrefix "\n---".toList ('\n' :: rest) = none := by
    rw [stripPrefix, if_neg]
    rw [List.isPrefixOf_iff_prefix]
    exact fun front => unmarked (List.cons_prefix_cons.mp front).2
  rw [cutAt, skipped]

theorem cutAt_marked (rest : Text) :
    cutAt "\n---".toList ("\n---".toList ++ rest) = some ([], rest) := rfl

/-- No line of the block is taken for its end. -/
theorem FrontLine.unmarked {kept line : Text} (front : FrontLine line) (part : kept <+: line)
    (rest : Text) : ¬ "---".toList <+: kept ++ '\n' :: rest := by
  intro marked
  apply front.2
  refine List.IsPrefix.trans ?_ part
  match kept, marked with
  | [], marked => simp at marked
  | [_], marked => simp at marked
  | [_, _], marked => simp at marked
  | _ :: _ :: _ :: _, marked => simpa using marked

theorem storedBlock_cons (line next : Text) (more : List Text) (body : Text) :
    storedBlock (line :: next :: more) body = line ++ '\n' :: storedBlock (next :: more) body := by
  simp [storedBlock, List.intercalate, List.intersperse]

theorem storedBlock_singleton (line body : Text) :
    storedBlock [line] body = line ++ '\n' :: ("---\n".toList ++ body) := by
  simp [storedBlock, List.intercalate, List.intersperse]

theorem unixLines_marker (body : Text) :
    unixLines ("---\n".toList ++ body) = "---\n".toList ++ unixLines body :=
  unixLines_append fun last => by simp at last

theorem storedBlock_begins (line : Text) (more : List Text) (body : Text) :
    ∃ rest, storedBlock (line :: more) body = line ++ '\n' :: rest := by
  cases more with
  | nil => exact ⟨_, storedBlock_singleton line body⟩
  | cons next more => exact ⟨_, storedBlock_cons line next more body⟩

theorem cutAt_storedBlock {line : Text} {more : List Text}
    (front : ∀ other ∈ line :: more, FrontLine other) (body : Text) :
    ∃ block, cutAt "\n---".toList (unixLines (storedBlock (line :: more) body)) =
      some (block, '\n' :: unixLines body) := by
  induction more generalizing line with
  | nil =>
      obtain ⟨kept, part, read⟩ := unixLines_line (front line List.mem_cons_self).1
      have single : '\n' ∉ kept := fun inside => (front line List.mem_cons_self).1 (part.subset inside)
      have marked := cutAt_marked ('\n' :: unixLines body)
      refine ⟨kept ++ [], ?_⟩
      rw [storedBlock_singleton, read, unixLines_marker, cutAt_line single]
      exact congrArg (Option.map _) marked
  | cons next more inductionHypothesis =>
      obtain ⟨kept, part, read⟩ := unixLines_line (front line List.mem_cons_self).1
      have single : '\n' ∉ kept := fun inside => (front line List.mem_cons_self).1 (part.subset inside)
      have later : ∀ other ∈ next :: more, FrontLine other := fun other member =>
        front other (List.mem_cons_of_mem _ member)
      have nextFront := later next List.mem_cons_self
      obtain ⟨rest, begins⟩ := storedBlock_begins next more body
      obtain ⟨keptNext, partNext, readNext⟩ := unixLines_line nextFront.1
      have unmarked : ¬ "---".toList <+: unixLines (storedBlock (next :: more) body) := by
        rw [begins, readNext]
        exact nextFront.unmarked partNext _
      obtain ⟨block, found⟩ := inductionHypothesis later
      refine ⟨kept ++ '\n' :: block, ?_⟩
      rw [storedBlock_cons, read, cutAt_line single, cutAt_unmarked unmarked, found]
      rfl

/-- The body that is read back has the line ends of one more pass. -/
theorem parseFm_storedText (tables : Unicode) {lines : List Text}
    (front : ∀ line ∈ lines, FrontLine line) (body : Text) :
    (parseFm tables (storedText lines body)).2 = unixLines body := by
  obtain ⟨block, found⟩ : ∃ block, cutAt "\n---".toList (unixLines (storedBlock lines body)) =
      some (block, '\n' :: unixLines body) := by
    cases lines with
    | nil =>
        have empty : ∀ other ∈ [([] : Text)], FrontLine other := by
          intro other member
          rw [List.mem_singleton.mp member]
          exact ⟨nofun, by decide⟩
        exact cutAt_storedBlock empty body
    | cons line more => exact cutAt_storedBlock front body
  have opened : stripPrefix "---\n".toList (unixLines (storedText lines body)) =
      some (unixLines (storedBlock lines body)) := by
    rw [storedText, unixLines_marker]
    rfl
  simp only [parseFm, opened, Option.bind_some, found]
  rfl

section Bodies

variable {tables : Unicode} {Key : Type} (crypto : Crypto Key)
variable (newline : tables.isWhitespace '\n' = true) (carriage : tables.isWhitespace '\r' = true)

include newline carriage

/-- Both the canonical form and the address of a stored body are stable exactly when one pass over
its line ends settles it. -/
theorem norm_stable_iff (body : Text) :
    (norm tables (norm tables body) = norm tables body ∧
      ∀ lines : List Text, (∀ line ∈ lines, FrontLine line) →
        classify tables crypto (addrOf tables crypto body)
          (parseFm tables (storedText lines body)).1
          (parseFm tables (storedText lines body)).2 = .content) ↔
      ¬ LeavesReturn tables body := by
  rw [← settled_iff newline carriage, norm_norm newline carriage]
  constructor
  · rintro ⟨same, -⟩
    exact List.append_cancel_right same
  · intro settled
    refine ⟨by rw [settled, norm], fun lines front => ?_⟩
    have address : addrOf tables crypto (unixLines body) = addrOf tables crypto body := by
      rw [addrOf, addrOf, norm_unixLines newline carriage, settled, norm]
    rw [parseFm_storedText tables front, classify, if_pos address]

end Bodies

/-- The digest of a short text is the text. -/
def openCrypto : Crypto Unit where
  sha256 bytes := ⟨(bytes ++ List.replicate 32 0).take 32, by simp⟩
  verify _ _ _ := false

theorem norm_stable_ascii :
    (norm Unicode.ascii (norm Unicode.ascii "a\r\nb".toList) = norm Unicode.ascii "a\r\nb".toList ∧
      ∀ lines : List Text, (∀ line ∈ lines, FrontLine line) →
        classify Unicode.ascii openCrypto (addrOf Unicode.ascii openCrypto "a\r\nb".toList)
          (parseFm Unicode.ascii (storedText lines "a\r\nb".toList)).1
          (parseFm Unicode.ascii (storedText lines "a\r\nb".toList)).2 = .content) ↔
      ¬ LeavesReturn Unicode.ascii "a\r\nb".toList :=
  norm_stable_iff openCrypto rfl rfl "a\r\nb".toList

/-- A second carriage return is left by the first pass and goes with the second. -/
theorem norm_unstable :
    norm Unicode.ascii (norm Unicode.ascii "a\r\r\nb".toList) ≠
      norm Unicode.ascii "a\r\r\nb".toList := by
  decide

end KairosEngine.Swarm
