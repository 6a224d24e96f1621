import Mathlib.Data.List.TakeWhile
import Mathlib.Tactic.FinCases
import KairosEngine.Daemon.Episode

/-!
# The lexical tests of `recall.rs`

Words, the interrogative test, the attribute-absence ratio and the two overlap
measures.  The character classes and case mappings of the Unicode tables are a
parameter, with the facts about white space that the standard library documents.
-/

namespace KairosEngine.Daemon

open KairosEngine.Library

/-- The Unicode tables the standard library consults. -/
structure Unicode where
  isWhitespace : Char → Bool
  isAlphanumeric : Char → Bool
  isCased : Char → Bool
  isCaseIgnorable : Char → Bool
  lower : Char → Text
  upper : Char → Text
  whitespace_not_alphanumeric : ∀ {c}, isWhitespace c = true → isAlphanumeric c = false
  whitespace_not_cased : ∀ {c}, isWhitespace c = true → isCased c = false
  whitespace_not_ignorable : ∀ {c}, isWhitespace c = true → isCaseIgnorable c = false
  whitespace_lower : ∀ {c}, isWhitespace c = true → lower c = [c]
  sigma_not_whitespace : isWhitespace 'Σ' = false
  question_not_whitespace : isWhitespace '?' = false

/-- The tables for ASCII text. -/
def Unicode.ascii : Unicode where
  isWhitespace c := [' ', '\t', '\n', '\r'].contains c
  isAlphanumeric := Char.isAlphanum
  isCased := Char.isAlpha
  isCaseIgnorable c := ['\'', '.', ':', '^'].contains c
  lower c := [c.toLower]
  upper c := [c.toUpper]
  whitespace_not_alphanumeric := by
    intro c blank
    rw [List.contains_iff_mem] at blank
    fin_cases blank <;> rfl
  whitespace_not_cased := by
    intro c blank
    rw [List.contains_iff_mem] at blank
    fin_cases blank <;> rfl
  whitespace_not_ignorable := by
    intro c blank
    rw [List.contains_iff_mem] at blank
    fin_cases blank <;> rfl
  whitespace_lower := by
    intro c blank
    rw [List.contains_iff_mem] at blank
    fin_cases blank <;> rfl
  sigma_not_whitespace := rfl
  question_not_whitespace := rfl

/-- The length of a `str` in bytes. -/
def utf8Len (word : Text) : Nat := (word.map Char.utf8Size).sum

theorem utf8Len_cons (c : Char) (rest : Text) :
    utf8Len (c :: rest) = c.utf8Size + utf8Len rest := by
  rw [utf8Len, List.map_cons, List.sum_cons, ← utf8Len]

/-- `str::contains` of a pattern. -/
def textContains (pattern text : Text) : Bool := text.tails.any pattern.isPrefixOf

/-! ## Words -/

/-- The nonempty pieces between separators, with the piece read so far in reverse. -/
def wordsFrom (separator : Char → Bool) (current : Text) : Text → List Text
  | [] => if current = [] then [] else [current.reverse]
  | c :: rest =>
      if separator c then
        if current = [] then wordsFrom separator [] rest
        else current.reverse :: wordsFrom separator [] rest
      else wordsFrom separator (c :: current) rest

/-- `split` followed by dropping the empty pieces. -/
def words (separator : Char → Bool) (text : Text) : List Text := wordsFrom separator [] text

theorem words_leading {separator : Char → Bool} {margin : Text}
    (separators : ∀ c ∈ margin, separator c = true) (text : Text) :
    words separator (margin ++ text) = words separator text := by
  induction margin with
  | nil => rfl
  | cons head tail inductionHypothesis =>
      have rest := inductionHypothesis fun c membership =>
        separators c (List.mem_cons_of_mem _ membership)
      simpa [words, wordsFrom, separators head List.mem_cons_self] using rest

theorem wordsFrom_trailing {separator : Char → Bool} {margin : Text}
    (separators : ∀ c ∈ margin, separator c = true) (current text : Text) :
    wordsFrom separator current (text ++ margin) = wordsFrom separator current text := by
  induction text generalizing current with
  | nil =>
      induction margin generalizing current with
      | nil => rfl
      | cons head tail inductionHypothesis =>
          have rest := inductionHypothesis
            (fun c membership => separators c (List.mem_cons_of_mem _ membership)) []
          simp only [List.nil_append] at rest ⊢
          simp [wordsFrom, separators head List.mem_cons_self, rest]
  | cons head tail inductionHypothesis =>
      simp only [List.cons_append, wordsFrom, inductionHypothesis]

theorem words_margins {separator : Char → Bool} {left right : Text}
    (leading : ∀ c ∈ left, separator c = true) (trailing : ∀ c ∈ right, separator c = true)
    (text : Text) : words separator (left ++ text ++ right) = words separator text := by
  rw [List.append_assoc, words_leading leading]
  exact wordsFrom_trailing trailing [] text

/-! ## Trimming and lower case -/

namespace Unicode

variable (tables : Unicode)

def trim (text : Text) : Text :=
  ((text.dropWhile tables.isWhitespace).reverse.dropWhile tables.isWhitespace).reverse

theorem trim_margins (text : Text) :
    ∃ left right, text = left ++ tables.trim text ++ right ∧
      (∀ c ∈ left, tables.isWhitespace c = true) ∧ ∀ c ∈ right, tables.isWhitespace c = true := by
  let inner := (text.dropWhile tables.isWhitespace).reverse
  refine ⟨text.takeWhile tables.isWhitespace, (inner.takeWhile tables.isWhitespace).reverse,
    ?_, fun c membership => List.mem_takeWhile_imp membership, fun c membership =>
      List.mem_takeWhile_imp (List.mem_reverse.mp membership)⟩
  have back := List.takeWhile_append_dropWhile (p := tables.isWhitespace) (l := inner)
  have front := List.takeWhile_append_dropWhile (p := tables.isWhitespace) (l := text)
  have whole : (inner.dropWhile tables.isWhitespace).reverse ++
      (inner.takeWhile tables.isWhitespace).reverse = text.dropWhile tables.isWhitespace := by
    rw [← List.reverse_append, back, List.reverse_reverse]
  rw [List.append_assoc]
  exact (whole ▸ front).symm

/-- Whether what follows the case-ignorable characters is cased. -/
def caseIgnorableThenCased : Text → Bool
  | [] => false
  | c :: rest => if tables.isCaseIgnorable c then caseIgnorableThenCased rest else tables.isCased c

/-- Lower case after a reversed context; a capital sigma is final when only what
stands before it is a word. -/
def lowercaseFrom (before : Text) : Text → Text
  | [] => []
  | c :: rest =>
      (if c = 'Σ' then
        if tables.caseIgnorableThenCased before && !tables.caseIgnorableThenCased rest then ['ς']
        else ['σ']
      else tables.lower c) ++ lowercaseFrom (c :: before) rest

/-- `str::to_lowercase`. -/
def toLowercase (text : Text) : Text := tables.lowercaseFrom [] text

theorem caseIgnorableThenCased_append {margin : Text}
    (blank : ∀ c ∈ margin, tables.isWhitespace c = true) (text : Text) :
    tables.caseIgnorableThenCased (text ++ margin) = tables.caseIgnorableThenCased text := by
  induction text with
  | nil =>
      cases margin with
      | nil => rfl
      | cons head tail =>
          have blankHead := blank head List.mem_cons_self
          simp [caseIgnorableThenCased, tables.whitespace_not_ignorable blankHead,
            tables.whitespace_not_cased blankHead]
  | cons head tail inductionHypothesis =>
      simp only [List.cons_append, caseIgnorableThenCased, inductionHypothesis]

theorem lowercaseFrom_context {margin : Text}
    (blank : ∀ c ∈ margin, tables.isWhitespace c = true) (before text : Text) :
    tables.lowercaseFrom (before ++ margin) text = tables.lowercaseFrom before text := by
  induction text generalizing before with
  | nil => rfl
  | cons head tail inductionHypothesis =>
      rw [lowercaseFrom, lowercaseFrom, tables.caseIgnorableThenCased_append blank,
        ← List.cons_append, inductionHypothesis]

theorem lowercaseFrom_blank {margin : Text}
    (blank : ∀ c ∈ margin, tables.isWhitespace c = true) (before : Text) :
    tables.lowercaseFrom before margin = margin := by
  induction margin generalizing before with
  | nil => rfl
  | cons head tail inductionHypothesis =>
      have blankHead := blank head List.mem_cons_self
      have plain : head ≠ 'Σ' := by
        intro sigma
        rw [sigma, tables.sigma_not_whitespace] at blankHead
        exact absurd blankHead (by simp)
      rw [lowercaseFrom, if_neg plain, tables.whitespace_lower blankHead,
        inductionHypothesis fun c membership => blank c (List.mem_cons_of_mem _ membership)]
      rfl

theorem lowercaseFrom_append {margin : Text}
    (blank : ∀ c ∈ margin, tables.isWhitespace c = true) (before text : Text) :
    tables.lowercaseFrom before (text ++ margin) = tables.lowercaseFrom before text ++ margin := by
  induction text generalizing before with
  | nil => exact tables.lowercaseFrom_blank blank before
  | cons head tail inductionHypothesis =>
      rw [List.cons_append, lowercaseFrom, lowercaseFrom,
        tables.caseIgnorableThenCased_append blank, inductionHypothesis, List.append_assoc]

theorem lowercaseFrom_prepend {margin : Text}
    (blank : ∀ c ∈ margin, tables.isWhitespace c = true) (before text : Text) :
    tables.lowercaseFrom before (margin ++ text) =
      margin ++ tables.lowercaseFrom (margin.reverse ++ before) text := by
  induction margin generalizing before with
  | nil => rfl
  | cons head tail inductionHypothesis =>
      have blankHead := blank head List.mem_cons_self
      have plain : head ≠ 'Σ' := by
        intro sigma
        rw [sigma, tables.sigma_not_whitespace] at blankHead
        exact absurd blankHead (by simp)
      rw [List.cons_append, lowercaseFrom, if_neg plain, tables.whitespace_lower blankHead,
        inductionHypothesis fun c membership => blank c (List.mem_cons_of_mem _ membership)]
      simp

theorem toLowercase_margins {left right : Text}
    (leading : ∀ c ∈ left, tables.isWhitespace c = true)
    (trailing : ∀ c ∈ right, tables.isWhitespace c = true) (text : Text) :
    tables.toLowercase (left ++ text ++ right) = left ++ tables.toLowercase text ++ right := by
  have reversed : ∀ c ∈ left.reverse, tables.isWhitespace c = true := fun c membership =>
    leading c (List.mem_reverse.mp membership)
  rw [toLowercase, tables.lowercaseFrom_append trailing, tables.lowercaseFrom_prepend leading,
    List.append_nil, ← List.nil_append left.reverse, tables.lowercaseFrom_context reversed,
    toLowercase]

/-! ## The tests -/

def notAlphanumeric (c : Char) : Bool := !tables.isAlphanumeric c

theorem notAlphanumeric_of_whitespace {c : Char} (blank : tables.isWhitespace c = true) :
    tables.notAlphanumeric c = true := by
  rw [notAlphanumeric, tables.whitespace_not_alphanumeric blank]
  rfl

def interrogativeHeads : List String :=
  ["what", "which", "who", "whom", "whose", "where", "when", "why", "how",
    "is", "are", "was", "were", "am", "do", "does", "did", "can", "could",
    "should", "would", "will", "shall", "have", "has", "had",
    "name", "tell", "state", "give", "list", "recall", "remember", "recite",
    "identify", "describe", "explain"]

/-- `is_interrogative`. -/
def isInterrogative (query : Text) : Bool :=
  if query.contains '?' then
    true
  else
    let first := (words tables.isWhitespace (tables.trim query)).headD []
    let head := tables.toLowercase (first.filter tables.isAlphanumeric)
    (interrogativeHeads.map String.toList).contains head

/-- The lower-case alphanumeric words of a text. -/
def lowerWords (text : Text) : List Text := words tables.notAlphanumeric (tables.toLowercase text)

def attrStop : List String :=
  ["the", "is", "are", "was", "were", "what", "which", "who", "whom", "whose",
    "of", "for", "and", "or", "does", "do", "did", "how", "many", "much", "that",
    "this", "its", "with", "by", "from", "you", "your", "have", "has", "had",
    "been", "be", "as", "not", "now", "current", "currently", "authoritative",
    "context", "there", "any", "about", "into", "please", "tell", "give", "list"]

/-- `attr_absent_ratio`: how much of the query's salient words the fact does not state. -/
def attrAbsentRatio (format : Format) (query fact : Text) : Ieee :=
  let factWords := tables.lowerWords fact
  let salient := (tables.lowerWords query).filter fun word =>
    decide (3 ≤ utf8Len word) && !(attrStop.map String.toList).contains word
  if salient = [] then
    .finite 0
  else
    let absent := salient.filter fun word => !factWords.contains word
    format.div (format.round absent.length) (format.round salient.length)

/-- `query_has_entity_token`: a word of at least four bytes with an ASCII digit. -/
def queryHasEntityToken (query : Text) : Bool :=
  (words tables.notAlphanumeric query).any fun word =>
    decide (4 ≤ utf8Len word) && word.any Char.isDigit

def canonStop : List String :=
  ["the", "is", "are", "was", "were", "what", "which", "who", "whom", "whose",
    "of", "for", "and", "or", "does", "do", "did", "how", "many", "much", "that",
    "this", "its", "with", "by", "from", "have", "has", "had", "been", "be",
    "as", "not", "now", "question", "rewritten", "reply", "answer"]

/-- `canon_overlap`: how many salient words of a rewritten query the fact has, up to a
common stem of four bytes. -/
def canonOverlap (canon fact : Text) : Nat :=
  let long := fun text => (tables.lowerWords text).filter fun word => decide (3 ≤ utf8Len word)
  let factWords := long fact
  let kept := (long canon).filter fun word => !(canonStop.map String.toList).contains word
  (kept.filter fun word =>
    factWords.any fun factWord =>
      factWord = word || (decide (4 ≤ utf8Len word) && word.isPrefixOf factWord) ||
        (decide (4 ≤ utf8Len factWord) && factWord.isPrefixOf word)).length

theorem lowerWords_trim (text : Text) : tables.lowerWords (tables.trim text) = tables.lowerWords text := by
  obtain ⟨left, right, whole, leading, trailing⟩ := tables.trim_margins text
  conv_rhs => rw [whole]
  rw [lowerWords, lowerWords, tables.toLowercase_margins leading trailing, words_margins
    (fun c membership => tables.notAlphanumeric_of_whitespace (leading c membership))
    (fun c membership => tables.notAlphanumeric_of_whitespace (trailing c membership))]

theorem attrAbsentRatio_trim (format : Format) (query fact : Text) :
    tables.attrAbsentRatio format (tables.trim query) fact =
      tables.attrAbsentRatio format query fact := by
  simp only [attrAbsentRatio, lowerWords_trim]

theorem queryHasEntityToken_trim (query : Text) :
    tables.queryHasEntityToken (tables.trim query) = tables.queryHasEntityToken query := by
  obtain ⟨left, right, whole, leading, trailing⟩ := tables.trim_margins query
  conv_rhs => rw [whole]
  rw [queryHasEntityToken, queryHasEntityToken, words_margins
    (fun c membership => tables.notAlphanumeric_of_whitespace (leading c membership))
    (fun c membership => tables.notAlphanumeric_of_whitespace (trailing c membership))]

theorem whitespaceWords_trim (text : Text) :
    words tables.isWhitespace (tables.trim text) = words tables.isWhitespace text := by
  obtain ⟨left, right, whole, leading, trailing⟩ := tables.trim_margins text
  conv_rhs => rw [whole]
  exact (words_margins leading trailing _).symm

theorem contains_question_trim (text : Text) : (tables.trim text).contains '?' = text.contains '?' := by
  obtain ⟨left, right, whole, leading, trailing⟩ := tables.trim_margins text
  have outside : ∀ margin : Text, (∀ c ∈ margin, tables.isWhitespace c = true) →
      margin.contains '?' = false := by
    intro margin blank
    rw [Bool.eq_false_iff]
    intro found
    rw [List.contains_iff_mem] at found
    have blankMark := blank '?' found
    rw [tables.question_not_whitespace] at blankMark
    exact absurd blankMark (by simp)
  conv_rhs => rw [whole]
  simp only [List.contains_append, outside left leading, outside right trailing, Bool.false_or,
    Bool.or_false]

theorem isInterrogative_trim (query : Text) :
    tables.isInterrogative (tables.trim query) = tables.isInterrogative query := by
  rw [isInterrogative, isInterrogative, contains_question_trim]
  simp only [whitespaceWords_trim]

/-- A blank text asks nothing. -/
theorem isInterrogative_blank {query : Text} (blank : tables.trim query = []) :
    tables.isInterrogative query = false := by
  rw [← tables.isInterrogative_trim, blank]
  rfl

theorem queryHasEntityToken_blank {query : Text} (blank : tables.trim query = []) :
    tables.queryHasEntityToken query = false := by
  rw [← tables.queryHasEntityToken_trim, blank]
  rfl

end Unicode

/-! ## Token overlap -/

def overlapStop : List String :=
  ["the", "an", "of", "to", "in", "on", "at", "for", "and", "or", "is", "are",
    "was", "were", "been", "with", "from", "that", "this", "its", "as", "by"]

/-- `overlap_toks`: lower-case ASCII words of at least three letters, without stop words. -/
def overlapToks (text : Text) : List Text :=
  let plain := text.map fun c => if c.isAlphanum then c.toLower else ' '
  (words (fun c => c = ' ') plain).filter fun word =>
    decide (3 ≤ word.length) && !(overlapStop.map String.toList).contains word

/-- `token_overlap`: the fraction of the evidence's tokens that the cited text has. -/
def tokenOverlap (format : Format) (evidence cited : Text) : Ieee :=
  let tokens := overlapToks evidence
  if tokens = [] then
    .finite 0
  else
    let citedTokens := overlapToks cited
    let hits := tokens.filter fun word => citedTokens.contains word
    format.div (format.round hits.length) (format.round tokens.length)

end KairosEngine.Daemon
