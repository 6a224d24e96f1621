import Mathlib.Data.List.Basic

/-!
# Windows of a sequence

The windows of a fixed width, and sequences no window of which occurs a second time.
-/

namespace KairosEngine.Library

universe u

variable {Token : Type u}

/-- The window of a width at a place. -/
def window (width start : Nat) (sequence : List Token) : List Token :=
  (sequence.drop start).take width

/-- The last window of the sequence occurs in it earlier. -/
def LastRecurs (width : Nat) (sequence : List Token) : Prop :=
  ∃ start, start + width < sequence.length ∧
    window width start sequence = window width (sequence.length - width) sequence

/-- No window that ends behind the base occurs earlier. -/
def NoneRecursBehind (width base : Nat) (sequence : List Token) : Prop :=
  ∀ start stop, base < stop → stop ≤ sequence.length → start + width < stop →
    window width start sequence ≠ window width (stop - width) sequence

instance [DecidableEq Token] (width : Nat) (sequence : List Token) :
    Decidable (LastRecurs width sequence) :=
  decidable_of_iff
    (∃ start < sequence.length, start + width < sequence.length ∧
      window width start sequence = window width (sequence.length - width) sequence)
    ⟨fun ⟨start, _, rest⟩ => ⟨start, rest⟩,
      fun ⟨start, inside, same⟩ => ⟨start, by omega, inside, same⟩⟩

theorem window_append {width start : Nat} {sequence : List Token}
    (inside : start + width ≤ sequence.length) (more : List Token) :
    window width start (sequence ++ more) = window width start sequence := by
  rw [window, window, List.drop_append_of_le_length (by omega),
    List.take_append_of_le_length (by rw [List.length_drop]; omega)]

theorem window_succ {width start : Nat} {sequence : List Token}
    (inside : start + width < sequence.length) :
    window (width + 1) start sequence = window width start sequence ++ [sequence[start + width]] := by
  rw [window, List.take_add_one, List.getElem?_drop, List.getElem?_eq_getElem inside]
  rfl

/-- The last window behind a new token. -/
theorem window_concat {width : Nat} {sequence : List Token} (long : width ≤ sequence.length)
    (token : Token) :
    window (width + 1) (sequence.length - width) (sequence ++ [token]) =
      window width (sequence.length - width) sequence ++ [token] := by
  have place : sequence.length - width + width = sequence.length := Nat.sub_add_cancel long
  rw [window_succ (by rw [List.length_append, List.length_singleton]; omega),
    window_append (Nat.le_of_eq place)]
  simp only [place, List.getElem_concat_length]

/-- A token makes the last window recur when it follows an earlier place of the window before
it. -/
theorem lastRecurs_concat_iff {width : Nat} {sequence : List Token} {token : Token} :
    LastRecurs (width + 1) (sequence ++ [token]) ↔
      ∃ start, start + width < sequence.length ∧
        window width start sequence = window width (sequence.length - width) sequence ∧
          sequence[start + width]? = some token := by
  rw [LastRecurs, List.length_append, List.length_singleton, Nat.add_sub_add_right]
  constructor
  · rintro ⟨start, inside, same⟩
    have within : start + width < sequence.length := by omega
    rw [window_concat (by omega), window_append (by omega), window_succ within] at same
    obtain ⟨front, last⟩ := List.append_inj' same rfl
    exact ⟨start, within, front,
      (List.getElem?_eq_getElem within).trans (congrArg some (List.singleton_inj.mp last))⟩
  · rintro ⟨start, inside, same, follows⟩
    obtain ⟨within, last⟩ := List.getElem?_eq_some_iff.mp follows
    refine ⟨start, by omega, ?_⟩
    rw [window_concat (by omega), window_append (by omega), window_succ within, same, last]

/-- A sequence stays free of recurring windows when its last window does not recur. -/
theorem NoneRecursBehind.concat {width base : Nat} {sequence : List Token} {token : Token}
    (free : NoneRecursBehind width base sequence)
    (fresh : ¬ LastRecurs width (sequence ++ [token])) :
    NoneRecursBehind width base (sequence ++ [token]) := by
  intro start stop behind inside apart
  rw [List.length_append, List.length_singleton] at inside
  rcases Nat.lt_or_eq_of_le inside with earlier | rfl
  · rw [window_append (by omega), window_append (by omega)]
    exact free start stop behind (by omega) apart
  · intro same
    exact fresh ⟨start, by rwa [List.length_append, List.length_singleton],
      by rwa [List.length_append, List.length_singleton]⟩

end KairosEngine.Library
