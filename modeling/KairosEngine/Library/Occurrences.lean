import Mathlib.Data.List.Basic
import Mathlib.Data.List.Infix

/-!
# Occurrences of marker strings

Markers that begin with a symbol they contain nowhere else, none of them a prefix of another, do
not overlap; what a text contains of them can be read off its pieces.
-/

namespace KairosEngine.Library

universe u

variable {Symbol : Type u}

structure Markers (Symbol : Type u) where
  lead : Symbol
  patterns : List (List Symbol)
  shape : ∀ pattern ∈ patterns, ∃ body, pattern = lead :: body ∧ lead ∉ body
  prefixFree : ∀ first ∈ patterns, ∀ second ∈ patterns, first <+: second → first = second

namespace Markers

section Closing

variable {markers : Markers Symbol} {left right pattern : List Symbol}

/-- Nothing inside a marker begins the text. -/
def Closes (markers : Markers Symbol) (text : List Symbol) : Prop :=
  ∀ c, text.head? = some c → ∀ pattern ∈ markers.patterns, c ∉ pattern.tail

/-- Where nothing inside a marker follows, a marker ends with the text it begins in. -/
theorem prefix_of_closes (closes : markers.Closes right) (member : pattern ∈ markers.patterns)
    (nonempty : left ≠ []) (begins : pattern <+: left ++ right) : pattern <+: left := by
  rcases List.prefix_or_prefix_of_prefix begins (List.prefix_append left right) with
    within | ⟨more, rfl⟩
  · exact within
  · cases more with
    | nil =>
        rw [List.append_nil]
    | cons c more =>
        obtain ⟨rest, rfl⟩ := (List.prefix_append_right_inj left).mp begins
        refine absurd ?_ (closes c rfl _ member)
        rw [List.tail_append_of_ne_nil nonempty]
        exact List.mem_append_right _ List.mem_cons_self

end Closing

variable [DecidableEq Symbol] (markers : Markers Symbol)

/-- The marker that the text begins with. -/
def here (text : List Symbol) : Option (List Symbol) :=
  markers.patterns.find? fun pattern => pattern.isPrefixOf text

/-- The markers in the text, in their order. -/
def occurrences (text : List Symbol) : List (List Symbol) := text.tails.filterMap markers.here

variable {markers} {text left right pattern : List Symbol}

theorem here_eq_some (found : markers.here text = some pattern) :
    pattern ∈ markers.patterns ∧ pattern <+: text :=
  ⟨List.mem_of_find?_eq_some found,
    List.isPrefixOf_iff_prefix.mp (List.find?_eq_some_iff_append.mp found).1⟩

theorem here_eq_none : markers.here text = none ↔
    ∀ pattern ∈ markers.patterns, ¬ pattern <+: text := by
  simp only [here, List.find?_eq_none, List.isPrefixOf_iff_prefix]

theorem here_nil : markers.here [] = none := by
  apply here_eq_none.mpr
  intro pattern member begins
  obtain ⟨body, rfl, _⟩ := markers.shape pattern member
  cases List.prefix_nil.mp begins

theorem here_of_ne {c : Symbol} (different : c ≠ markers.lead) (rest : List Symbol) :
    markers.here (c :: rest) = none := by
  apply here_eq_none.mpr
  intro pattern member begins
  obtain ⟨body, rfl, _⟩ := markers.shape pattern member
  exact different (List.cons_prefix_cons.mp begins).1.symm

/-- At most one marker begins a text. -/
theorem here_of_prefix (member : pattern ∈ markers.patterns) (begins : pattern <+: text) :
    markers.here text = some pattern := by
  cases found : markers.here text with
  | none => exact absurd begins (here_eq_none.mp found pattern member)
  | some other =>
      obtain ⟨present, too⟩ := here_eq_some found
      rcases List.prefix_or_prefix_of_prefix begins too with shorter | longer
      · rw [markers.prefixFree pattern member other present shorter]
      · rw [markers.prefixFree other present pattern member longer]

theorem mem_patterns_of_mem_occurrences (member : pattern ∈ markers.occurrences text) :
    pattern ∈ markers.patterns := by
  obtain ⟨rest, _, found⟩ := List.mem_filterMap.mp member
  exact (here_eq_some found).1

theorem occurrences_nil : markers.occurrences [] = [] := by
  rw [occurrences, List.tails, List.filterMap_cons_none here_nil, List.filterMap_nil]

theorem occurrences_cons (c : Symbol) (rest : List Symbol) :
    markers.occurrences (c :: rest) =
      (markers.here (c :: rest)).toList ++ markers.occurrences rest := by
  rw [occurrences, List.tails_cons, List.filterMap_cons]
  cases markers.here (c :: rest) with
  | none => rfl
  | some pattern => rfl

/-- What contains no leading symbol contains no marker, and begins none. -/
theorem occurrences_skip (absent : markers.lead ∉ left) :
    markers.occurrences (left ++ right) = markers.occurrences right := by
  induction left with
  | nil => rfl
  | cons c rest inductionHypothesis =>
      rw [List.mem_cons, not_or] at absent
      rw [List.cons_append, occurrences_cons, here_of_ne (Ne.symm absent.1),
        inductionHypothesis absent.2]
      rfl

theorem occurrences_of_notMem (absent : markers.lead ∉ text) : markers.occurrences text = [] := by
  have skipped := @occurrences_skip _ _ markers text [] absent
  rwa [List.append_nil, occurrences_nil] at skipped

theorem occurrences_pattern (member : pattern ∈ markers.patterns) (right : List Symbol) :
    markers.occurrences (pattern ++ right) = pattern :: markers.occurrences right := by
  have found := here_of_prefix member (List.prefix_append pattern right)
  obtain ⟨body, rfl, absent⟩ := markers.shape pattern member
  rw [List.cons_append] at found ⊢
  rw [occurrences_cons, found, occurrences_skip absent]
  rfl

/-- The markers of two pieces of which the second cannot continue one. -/
theorem occurrences_append (closes : markers.Closes right) :
    markers.occurrences (left ++ right) = markers.occurrences left ++ markers.occurrences right := by
  induction left with
  | nil => rw [occurrences_nil, List.nil_append, List.nil_append]
  | cons c rest inductionHypothesis =>
      have same : markers.here (c :: rest ++ right) = markers.here (c :: rest) := by
        cases found : markers.here (c :: rest) with
        | some pattern =>
            obtain ⟨member, begins⟩ := here_eq_some found
            exact here_of_prefix member (begins.trans (List.prefix_append _ right))
        | none =>
            apply here_eq_none.mpr
            intro pattern member begins
            exact here_eq_none.mp found pattern member
              (prefix_of_closes closes member (List.cons_ne_nil c rest) begins)
      rw [List.cons_append] at same
      rw [List.cons_append, occurrences_cons, occurrences_cons, same, inductionHypothesis,
        List.append_assoc]

/-- A text that differs from every marker before either ends contains none. -/
theorem occurrences_decoy {body : List Symbol} (absent : markers.lead ∉ body)
    (differs : ∀ pattern ∈ markers.patterns,
      ¬ pattern <+: markers.lead :: body ∧ ¬ markers.lead :: body <+: pattern)
    (right : List Symbol) :
    markers.occurrences (markers.lead :: body ++ right) = markers.occurrences right := by
  have nowhere : markers.here (markers.lead :: (body ++ right)) = none := by
    apply here_eq_none.mpr
    intro pattern member begins
    rcases List.prefix_or_prefix_of_prefix begins
        (List.prefix_append (markers.lead :: body) right) with shorter | longer
    · exact (differs pattern member).1 shorter
    · exact (differs pattern member).2 longer
  rw [List.cons_append, occurrences_cons, nowhere, occurrences_skip absent]
  rfl

end Markers

end KairosEngine.Library
