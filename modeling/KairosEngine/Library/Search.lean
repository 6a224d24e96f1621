import Mathlib.Data.List.Basic

/-!
# Occurrences in a list

Where a list occurs in another, what cutting and extending the text does to its occurrences, and
the first of them.
-/

namespace KairosEngine.Library

universe u

variable {Letter : Type u}

def OccursAt (needle text : List Letter) (pos : Nat) : Prop := needle <+: text.drop pos

instance [DecidableEq Letter] (needle text : List Letter) (pos : Nat) :
    Decidable (OccursAt needle text pos) :=
  inferInstanceAs (Decidable (needle <+: text.drop pos))

variable {needle text : List Letter} {pos count : Nat}

theorem OccursAt.inside (occurs : OccursAt needle text pos) (nonempty : needle ≠ []) :
    pos + needle.length ≤ text.length := by
  have fits := occurs.length_le
  rw [List.length_drop] at fits
  have long := List.length_pos_iff.mpr nonempty
  omega

theorem OccursAt.append (occurs : OccursAt needle text pos) (nonempty : needle ≠ [])
    (more : List Letter) : OccursAt needle (text ++ more) pos := by
  have inside := occurs.inside nonempty
  rw [OccursAt, List.drop_append_of_le_length (by omega)]
  exact occurs.trans (List.prefix_append _ _)

/-- An occurrence that ends within the text does not depend on what follows. -/
theorem OccursAt.of_append {more : List Letter} (occurs : OccursAt needle (text ++ more) pos)
    (inside : pos + needle.length ≤ text.length) : OccursAt needle text pos := by
  rw [OccursAt, List.drop_append_of_le_length (by omega)] at occurs
  apply List.prefix_of_prefix_length_le occurs (List.prefix_append _ _)
  rw [List.length_drop]
  omega

theorem occursAt_drop : OccursAt needle (text.drop count) pos ↔ OccursAt needle text (count + pos) := by
  rw [OccursAt, OccursAt, List.drop_drop]

/-! ## The first occurrence of several lists -/

variable [DecidableEq Letter]

/-- The first position where any of the lists occurs. -/
def earliest (needles : List (List Letter)) (text : List Letter) : Option Nat :=
  (List.range (text.length + 1)).find? fun pos =>
    needles.any fun needle => decide (OccursAt needle text pos)

/-- The text up to the first position where any of the lists occurs. -/
def truncateAt (needles : List (List Letter)) (text : List Letter) : List Letter :=
  match earliest needles text with
  | some pos => text.take pos
  | none => text

variable {needles : List (List Letter)}

theorem earliest_eq_some (nonempty : ∀ needle ∈ needles, needle ≠ []) :
    earliest needles text = some pos ↔
      (∃ needle ∈ needles, OccursAt needle text pos) ∧
        ∀ needle ∈ needles, ∀ before < pos, ¬OccursAt needle text before := by
  simp only [earliest, List.find?_range_eq_some, List.any_eq_true, decide_eq_true_eq,
    List.mem_range, Bool.not_eq_true', List.any_eq_false]
  constructor
  · rintro ⟨occurs, _, first⟩
    exact ⟨occurs, fun needle member before earlier => first before earlier needle member⟩
  · rintro ⟨⟨needle, member, occurs⟩, first⟩
    have inside := occurs.inside (nonempty needle member)
    exact ⟨⟨needle, member, occurs⟩, by omega,
      fun before earlier needle member => first needle member before earlier⟩

theorem earliest_eq_none (nonempty : ∀ needle ∈ needles, needle ≠ []) :
    earliest needles text = none ↔
      ∀ needle ∈ needles, ∀ pos, ¬OccursAt needle text pos := by
  simp only [earliest, List.find?_range_eq_none, Bool.not_eq_true', List.any_eq_false,
    decide_eq_true_eq]
  constructor
  · intro none needle member pos occurs
    have inside := occurs.inside (nonempty needle member)
    exact none pos (by omega) needle member occurs
  · intro none pos _ needle member
    exact none needle member pos

/-- Cutting at an occurrence truncates the text exactly where nothing occurs before it. -/
theorem take_eq_truncateAt_iff (nonempty : ∀ needle ∈ needles, needle ≠ [])
    (member : needle ∈ needles) (occurs : OccursAt needle text pos) :
    text.take pos = truncateAt needles text ↔
      ∀ other ∈ needles, ∀ before < pos, ¬OccursAt other text before := by
  have inside := occurs.inside (nonempty needle member)
  unfold truncateAt
  cases found : earliest needles text with
  | none => exact absurd occurs ((earliest_eq_none nonempty).mp found needle member pos)
  | some first =>
      obtain ⟨⟨other, otherMember, there⟩, least⟩ := (earliest_eq_some nonempty).mp found
      have otherInside := there.inside (nonempty other otherMember)
      constructor
      · intro same
        have lengths := congrArg List.length same
        simp only [List.length_take] at lengths
        obtain rfl : pos = first := by omega
        exact least
      · intro none
        obtain rfl : pos = first := by
          by_contra different
          rcases Nat.lt_or_gt_of_ne different with before | after
          · exact least needle member pos before occurs
          · exact none other otherMember first after there
        rfl

end KairosEngine.Library
