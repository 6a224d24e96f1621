import Mathlib.Data.List.Basic

/-!
# Strided loops

`for (t = start; t < last; t += step)`, whose body handles the positions from `t` up to the next
`t` or to the end.
-/

namespace KairosEngine.Library

/-- Where each round of the loop starts, and how many positions it handles. -/
def strides {step : Nat} (positive : 0 < step) (last start : Nat) : List (Nat × Nat) :=
  if start < last then
    (start, min (last - start) step) :: strides positive last (start + step)
  else
    []
termination_by last - start

variable {step : Nat} {positive : 0 < step} {last start : Nat}

/-- The rounds handle every position once, in order. -/
theorem strides_flatMap :
    (strides positive last start).flatMap (fun round => List.range' round.1 round.2) =
      List.range' start (last - start) := by
  induction start using strides.induct positive last with
  | case1 start inside inductionHypothesis =>
      rw [strides, if_pos inside, List.flatMap_cons, inductionHypothesis]
      by_cases whole : step ≤ last - start
      · rw [Nat.min_eq_right whole, List.range'_append_1]
        congr 1
        omega
      · have rest : last - (start + step) = 0 := by omega
        rw [Nat.min_eq_left (Nat.le_of_not_le whole), rest, List.range'_zero, List.append_nil]
  | case2 start outside =>
      rw [strides, if_neg outside, Nat.sub_eq_zero_of_le (Nat.le_of_not_lt outside)]
      rfl

/-- A round is a part of the loop, no longer than the step. -/
structure StrideWithin (step last start : Nat) (round : Nat × Nat) : Prop where
  start_le : start ≤ round.1
  nonempty : 0 < round.2
  le_step : round.2 ≤ step
  le_last : round.1 + round.2 ≤ last

theorem mem_strides {round : Nat × Nat} (member : round ∈ strides positive last start) :
    StrideWithin step last start round := by
  induction start using strides.induct positive last with
  | case1 start inside inductionHypothesis =>
      rw [strides, if_pos inside] at member
      rcases List.mem_cons.mp member with rfl | later
      · constructor
        · exact Nat.le_refl _
        · exact Nat.lt_min.mpr ⟨Nat.sub_pos_of_lt inside, positive⟩
        · exact Nat.min_le_right ..
        · have short := Nat.min_le_left (last - start) step
          exact Nat.add_le_of_le_sub' (Nat.le_of_lt inside) short
      · have within := inductionHypothesis later
        exact ⟨Nat.le_of_add_right_le within.start_le, within.nonempty, within.le_step,
          within.le_last⟩
  | case2 start outside =>
      rw [strides, if_neg outside] at member
      cases member

/-! ## The starts of the rounds -/

/-- A round starts at every step of the loop. -/
theorem mem_starts {position : Nat} :
    position ∈ (strides positive last start).map Prod.fst ↔
      start ≤ position ∧ position < last ∧ step ∣ position - start := by
  induction start using strides.induct positive last with
  | case1 start inside inductionHypothesis =>
      rw [strides, if_pos inside, List.map_cons, List.mem_cons, inductionHypothesis]
      constructor
      · rintro (rfl | ⟨later, below, divides⟩)
        · exact ⟨Nat.le_refl _, inside, by rw [Nat.sub_self]; exact Nat.dvd_zero step⟩
        · refine ⟨Nat.le_of_add_right_le later, below, ?_⟩
          have split : position - start = (position - (start + step)) + step := by omega
          rw [split]
          exact Nat.dvd_add divides (Nat.dvd_refl step)
      · rintro ⟨later, below, divides⟩
        by_cases first : position = start
        · exact Or.inl first
        · have far : step ≤ position - start := Nat.le_of_dvd (by omega) divides
          refine Or.inr ⟨by omega, below, ?_⟩
          rw [← Nat.sub_sub]
          exact Nat.dvd_sub divides (Nat.dvd_refl step)
  | case2 start outside =>
      rw [strides, if_neg outside]
      constructor
      · intro member
        cases member
      · rintro ⟨later, below, _⟩
        exact absurd (Nat.lt_of_le_of_lt later below) outside

theorem starts_nodup : ((strides positive last start).map Prod.fst).Nodup := by
  induction start using strides.induct positive last with
  | case1 start inside inductionHypothesis =>
      rw [strides, if_pos inside, List.map_cons, List.nodup_cons]
      refine ⟨fun member => ?_, inductionHypothesis⟩
      have later := (mem_starts.mp member).1
      omega
  | case2 start outside =>
      rw [strides, if_neg outside]
      exact List.nodup_nil

/-- Loops that start at the positions below the step share out every position. -/
theorem existsUnique_start {position : Nat} (below : position < last) :
    ∃ lane, (lane < step ∧ position ∈ (strides positive last lane).map Prod.fst) ∧
      ∀ other, other < step ∧ position ∈ (strides positive last other).map Prod.fst →
        other = lane := by
  refine ⟨position % step, ⟨Nat.mod_lt _ positive, mem_starts.mpr ⟨Nat.mod_le _ _, below, ?_⟩⟩, ?_⟩
  · exact Nat.dvd_sub_mod position
  · rintro other ⟨small, member⟩
    obtain ⟨later, _, divides⟩ := mem_starts.mp member
    obtain ⟨rounds, whole⟩ := divides
    have position_eq : position = other + step * rounds := by omega
    rw [position_eq, Nat.add_mul_mod_self_left, Nat.mod_eq_of_lt small]

end KairosEngine.Library
