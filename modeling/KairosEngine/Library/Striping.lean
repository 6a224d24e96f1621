import Mathlib.Data.List.Basic
import Mathlib.Data.List.Perm.Basic
import Mathlib.Logic.Function.Basic
import Mathlib.Logic.ExistsUnique

/-!
# Values under keys, in stripes and packed

A bucket is a stripe of one array, filled by a counter; packed, the buckets follow each other at
offsets that are the sums of the counters.
-/

namespace KairosEngine.Library

universe u

variable {Value : Type u}

/-- What was pushed under a key, in order. -/
def under (pushed : List (Nat × Value)) (key : Nat) : List Value :=
  (pushed.filter fun entry => decide (entry.1 = key)).map Prod.snd

theorem under_append (first second : List (Nat × Value)) (key : Nat) :
    under (first ++ second) key = under first key ++ under second key := by
  rw [under, List.filter_append, List.map_append]
  rfl

theorem under_singleton_self (key : Nat) (value : Value) : under [(key, value)] key = [value] := by
  simp [under]

theorem under_singleton_of_ne {key other : Nat} (value : Value) (apart : key ≠ other) :
    under [(key, value)] other = [] := by
  simp [under, apart]

theorem mem_under {pushed : List (Nat × Value)} {key : Nat} {value : Value} :
    value ∈ under pushed key ↔ (key, value) ∈ pushed := by
  rw [under, List.mem_map]
  constructor
  · rintro ⟨entry, member, rfl⟩
    obtain ⟨present, same⟩ := List.mem_filter.mp member
    rw [← of_decide_eq_true same]
    exact present
  · intro present
    exact ⟨(key, value), List.mem_filter.mpr ⟨present, decide_eq_true rfl⟩, rfl⟩

/-- Distinct keys have one value each. -/
theorem length_under_le_one {pushed : List (Nat × Value)} (distinct : (pushed.map Prod.fst).Nodup)
    (key : Nat) : (under pushed key).length ≤ 1 := by
  induction pushed with
  | nil => exact Nat.zero_le 1
  | cons entry rest inductionHypothesis =>
      rw [List.map_cons, List.nodup_cons] at distinct
      rw [← List.singleton_append, under_append, List.length_append]
      by_cases same : entry.1 = key
      · have none : under rest key = [] := by
          rw [List.eq_nil_iff_forall_not_mem]
          intro value member
          apply distinct.1
          rw [same]
          exact List.mem_map.mpr ⟨(key, value), mem_under.mp member, rfl⟩
        subst same
        rw [none, under_singleton_self]
        exact Nat.le_refl 1
      · rw [under_singleton_of_ne _ same, List.length_nil, Nat.zero_add]
        exact inductionHypothesis distinct.2

theorem map_mk_under (pushed : List (Nat × Value)) (key : Nat) :
    (under pushed key).map (Prod.mk key) = pushed.filter fun entry => decide (entry.1 = key) := by
  rw [under, List.map_map]
  calc (pushed.filter fun entry => decide (entry.1 = key)).map (Prod.mk key ∘ Prod.snd)
      = (pushed.filter fun entry => decide (entry.1 = key)).map id := by
        apply List.map_congr_left
        intro entry member
        have same := of_decide_eq_true (List.mem_filter.mp member).2
        rw [Function.comp_apply, ← same]
        rfl
    _ = pushed.filter fun entry => decide (entry.1 = key) := List.map_id _

/-- The values under the first keys, key by key, are what was pushed under them. -/
theorem flatMap_under_perm_filter (pushed : List (Nat × Value)) :
    ∀ keys, ((List.range keys).flatMap fun key => (under pushed key).map (Prod.mk key)).Perm
      (pushed.filter fun entry => decide (entry.1 < keys))
  | 0 => by
    rw [List.filter_eq_nil_iff.mpr (by simp)]
    exact List.Perm.refl _
  | keys + 1 => by
    have below : (pushed.filter fun entry => decide (entry.1 < keys + 1)).filter
          (fun entry => decide (entry.1 < keys)) =
        pushed.filter fun entry => decide (entry.1 < keys) := by
      rw [List.filter_filter]
      apply List.filter_congr
      intro entry _
      rw [Bool.eq_iff_iff, Bool.and_eq_true, decide_eq_true_eq, decide_eq_true_eq]
      omega
    have last : (pushed.filter fun entry => decide (entry.1 < keys + 1)).filter
          (fun entry => !decide (entry.1 < keys)) =
        pushed.filter fun entry => decide (entry.1 = keys) := by
      rw [List.filter_filter]
      apply List.filter_congr
      intro entry _
      rw [Bool.eq_iff_iff, Bool.and_eq_true, decide_eq_true_eq, decide_eq_true_eq,
        Bool.not_eq_true', decide_eq_false_iff_not]
      omega
    have split := List.filter_append_perm (fun entry : Nat × Value => decide (entry.1 < keys))
      (pushed.filter fun entry => decide (entry.1 < keys + 1))
    rw [below, last] at split
    rw [List.range_succ, List.flatMap_append, List.flatMap_singleton, map_mk_under]
    exact ((flatMap_under_perm_filter pushed keys).append_right _).trans split

/-- The values under all keys, key by key, are what was pushed. -/
theorem flatMap_under_perm {pushed : List (Nat × Value)} {keys : Nat}
    (below : ∀ entry ∈ pushed, entry.1 < keys) :
    ((List.range keys).flatMap fun key => (under pushed key).map (Prod.mk key)).Perm pushed := by
  have all := flatMap_under_perm_filter pushed keys
  rwa [List.filter_eq_self.mpr fun entry member => decide_eq_true (below entry member)] at all

/-! ## Stripes -/

/-- Every key has a stripe of the array, filled from its start in the order of the pushes. -/
structure Striped (width : Nat) (pushed : List (Nat × Value)) (n : Nat → Nat) (cells : Nat → Value) :
    Prop where
  count : ∀ key, n key = (under pushed key).length
  cells : ∀ key i value, (under pushed key)[i]? = some value → cells (key * width + i) = value

namespace Striped

variable {width : Nat} {pushed : List (Nat × Value)} {n : Nat → Nat} {cells : Nat → Value}

theorem empty (width : Nat) (cells : Nat → Value) : Striped width [] (fun _ => 0) cells where
  count := fun _ => rfl
  cells := fun _ _ _ found => by cases found

/-- Two places of stripes are apart. -/
theorem place_injective {key other i j : Nat} (inside : i < width) (inside' : j < width)
    (same : key * width + i = other * width + j) : key = other ∧ i = j := by
  have keys : (key * width + i) / width = (other * width + j) / width := by rw [same]
  have positive : 0 < width := by omega
  rw [Nat.mul_comm, Nat.mul_add_div positive, Nat.mul_comm, Nat.mul_add_div positive,
    Nat.div_eq_of_lt inside, Nat.div_eq_of_lt inside', Nat.add_zero, Nat.add_zero] at keys
  subst keys
  exact ⟨rfl, by omega⟩

theorem push (striped : Striped width pushed n cells)
    (bounded : ∀ key, (under pushed key).length ≤ width) {key : Nat}
    (room : (under pushed key).length < width) (value : Value) :
    Striped width (pushed ++ [(key, value)]) (Function.update n key (n key + 1))
      (Function.update cells (key * width + n key) value) where
  count := by
    intro other
    rw [under_append, List.length_append]
    by_cases same : other = key
    · subst same
      rw [Function.update_self, striped.count, under_singleton_self, List.length_singleton]
    · rw [Function.update_of_ne same, striped.count, under_singleton_of_ne _ (Ne.symm same),
        List.length_nil, Nat.add_zero]
  cells := by
    intro other i found present
    rw [under_append] at present
    have placed := striped.count key
    by_cases early : i < (under pushed other).length
    · rw [List.getElem?_append_left early] at present
      have away : other * width + i ≠ key * width + n key := by
        intro same
        have inside := bounded other
        obtain ⟨rfl, rfl⟩ := place_injective (by omega) (by omega) same
        omega
      rw [Function.update_of_ne away]
      exact striped.cells other i found present
    · rw [List.getElem?_append_right (by omega)] at present
      by_cases same : key = other
      · subst same
        rw [under_singleton_self] at present
        have first : i - (under pushed key).length = 0 := by
          have inside := (List.getElem?_eq_some_iff.mp present).1
          rw [List.length_singleton] at inside
          omega
        rw [first, List.getElem?_cons_zero, Option.some.injEq] at present
        have here : i = n key := by omega
        rw [here, Function.update_self, present]
      · rw [under_singleton_of_ne _ same] at present
        cases present

/-- A stripe read back. -/
theorem read (striped : Striped width pushed n cells) (key : Nat) :
    (List.range (n key)).map (fun i => cells (key * width + i)) = under pushed key := by
  apply List.ext_getElem
  · rw [List.length_map, List.length_range, striped.count]
  · intro i _ inside
    rw [List.getElem_map, List.getElem_range]
    exact striped.cells key i _ (List.getElem?_eq_getElem inside)

end Striped

/-! ## Offsets -/

/-- Where the values of a key start when all buckets are packed. -/
def offset (n : Nat → Nat) : Nat → Nat
  | 0 => 0
  | key + 1 => offset n key + n key

theorem offset_mono {n : Nat → Nat} {key later : Nat} (le : key ≤ later) :
    offset n key ≤ offset n later := by
  induction le with
  | refl => exact Nat.le_refl _
  | step _ inductionHypothesis => exact Nat.le_trans inductionHypothesis (Nat.le_add_right _ _)

/-- Every place below the last offset is of one key. -/
theorem offset_partition {n : Nat → Nat} {keys place : Nat} (below : place < offset n keys) :
    ∃! key, key < keys ∧ offset n key ≤ place ∧ place < offset n key + n key := by
  induction keys with
  | zero => exact absurd below (Nat.not_lt_zero _)
  | succ keys inductionHypothesis =>
      by_cases early : place < offset n keys
      · obtain ⟨key, ⟨inside, bounds⟩, unique⟩ := inductionHypothesis early
        refine ⟨key, ⟨by omega, bounds⟩, fun other found => ?_⟩
        have before : other < keys := by
          by_contra late
          have start := @offset_mono n keys other (by omega)
          omega
        exact unique other ⟨before, found.2⟩
      · refine ⟨keys, ⟨Nat.lt_succ_self _, by omega, below⟩, fun other found => ?_⟩
        by_contra apart
        have next := @offset_mono n (other + 1) keys (by omega)
        rw [offset] at next
        omega

theorem offset_eq_length {pushed : List (Nat × Value)} {n : Nat → Nat}
    (count : ∀ key, n key = (under pushed key).length) :
    ∀ keys, offset n keys =
      ((List.range keys).flatMap fun key => (under pushed key).map (Prod.mk key)).length
  | 0 => rfl
  | keys + 1 => by
    rw [offset, offset_eq_length count keys, List.range_succ, List.flatMap_append,
      List.length_append, List.flatMap_singleton, List.length_map, count]

end KairosEngine.Library
