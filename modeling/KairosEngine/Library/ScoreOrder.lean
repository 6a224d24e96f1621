import Mathlib.Data.List.Sort
import Mathlib.Data.List.Nodup

/-!
# Positions in the order of their scores

Higher scores come first and equal ones in the order of their positions.  The ranking of the
first positions grows by inserting the next one in front of the first that it beats, and the place
of a position in it is the number of positions ahead.
-/

namespace KairosEngine.Library

universe u

/-! ## The place of an entry in a sorted list -/

section Place

variable {Entry : Type u} {before : Entry → Entry → Prop} [DecidableRel before]

/-- In a list that is ordered strictly, an entry has as many before it as its index. -/
theorem countP_before (irreflexive : ∀ entry, ¬ before entry entry)
    (asymmetric : ∀ first second, before first second → ¬ before second first) :
    ∀ {entries : List Entry} {index : Nat} {entry : Entry}, entries.Pairwise before →
      entries[index]? = some entry →
      entries.countP (fun other => decide (before other entry)) = index
  | [], index, entry, _, found => by simp at found
  | head :: rest, 0, entry, ordered, found => by
    rw [List.getElem?_cons_zero, Option.some.injEq] at found
    subst found
    have behind := (List.pairwise_cons.mp ordered).1
    rw [List.countP_eq_zero]
    intro other member
    rw [decide_eq_true_eq]
    rcases List.mem_cons.mp member with rfl | later
    · exact irreflexive other
    · exact asymmetric _ _ (behind other later)
  | head :: rest, index + 1, entry, ordered, found => by
    rw [List.getElem?_cons_succ] at found
    obtain ⟨behind, tail⟩ := List.pairwise_cons.mp ordered
    have ahead := behind entry (List.mem_of_getElem? found)
    rw [List.countP_cons, if_pos (decide_eq_true ahead), countP_before irreflexive asymmetric tail found]

end Place

/-! ## Scores -/

variable {Score : Type u} [LinearOrder Score]

/-- The first position comes before the second. -/
def Outranks (score : Nat → Score) (first second : Nat) : Prop :=
  score second < score first ∨ score first = score second ∧ first < second

instance (score : Nat → Score) : DecidableRel (Outranks score) :=
  fun first second => inferInstanceAs
    (Decidable (score second < score first ∨ score first = score second ∧ first < second))

variable {score : Nat → Score}

theorem outranks_irrefl (position : Nat) : ¬ Outranks score position position := by
  rintro (less | ⟨_, less⟩)
  · exact lt_irrefl _ less
  · exact Nat.lt_irrefl _ less

theorem outranks_asymm (first second : Nat) (ahead : Outranks score first second) :
    ¬ Outranks score second first := by
  rintro (less | ⟨same, less⟩)
  · rcases ahead with more | ⟨same, _⟩
    · exact lt_asymm less more
    · exact less.ne same
  · rcases ahead with more | ⟨_, more⟩
    · exact more.ne same
    · exact Nat.lt_asymm less more

/-- Orders that put no two positions the other way round are the same. -/
theorem outranks_congr {Other : Type u} [LinearOrder Other] {other : Nat → Other} {first second : Nat}
    (less : score second < score first ↔ other second < other first)
    (same : score first = score second ↔ other first = other second) :
    Outranks score first second ↔ Outranks other first second := by
  unfold Outranks
  rw [less, same]

/-- The first `count` positions, ranked. -/
def ranking (score : Nat → Score) : Nat → List Nat
  | 0 => []
  | count + 1 =>
      (ranking score count).orderedInsert (fun first second => score second < score first) count

theorem ranking_perm : ∀ count, (ranking score count).Perm (List.range count)
  | 0 => List.Perm.refl _
  | count + 1 => by
    rw [ranking, List.range_succ]
    calc List.Perm ((ranking score count).orderedInsert _ count) (count :: ranking score count) :=
          List.perm_orderedInsert _ _ _
      List.Perm _ (count :: List.range count) := (ranking_perm count).cons count
      List.Perm _ (List.range count ++ [count]) := (List.perm_append_singleton _ _).symm

theorem mem_ranking {count position : Nat} : position ∈ ranking score count ↔ position < count := by
  rw [(ranking_perm count).mem_iff, List.mem_range]

theorem length_ranking (count : Nat) : (ranking score count).length = count := by
  rw [(ranking_perm count).length_eq, List.length_range]

theorem ranking_nodup (count : Nat) : (ranking score count).Nodup :=
  (ranking_perm count).nodup_iff.mpr List.nodup_range

/-- A later position goes in front of the first that it beats, behind all that it does not. -/
theorem orderedInsert_outranks {position : Nat} :
    ∀ {entries : List Nat}, entries.Pairwise (Outranks score) → (∀ entry ∈ entries, entry < position) →
      (entries.orderedInsert (fun first second => score second < score first) position).Pairwise
        (Outranks score)
  | [], _, _ => List.pairwise_singleton _ _
  | head :: rest, ordered, earlier => by
    obtain ⟨behind, tail⟩ := List.pairwise_cons.mp ordered
    rw [List.orderedInsert_cons]
    split
    next beaten =>
      refine List.pairwise_cons.mpr ⟨fun entry member => Or.inl ?_, ordered⟩
      rcases List.mem_cons.mp member with rfl | later
      · exact beaten
      · rcases behind entry later with less | ⟨same, _⟩
        · exact less.trans beaten
        · exact same ▸ beaten
    next unbeaten =>
      refine List.pairwise_cons.mpr ⟨fun entry member => ?_, orderedInsert_outranks tail
        fun entry member => earlier entry (List.mem_cons_of_mem _ member)⟩
      rcases (List.mem_orderedInsert _).mp member with rfl | later
      · rcases (not_lt.mp unbeaten).lt_or_eq with less | same
        · exact Or.inl less
        · exact Or.inr ⟨same.symm, earlier head List.mem_cons_self⟩
      · exact behind entry later

theorem ranking_outranks : ∀ count, (ranking score count).Pairwise (Outranks score)
  | 0 => List.Pairwise.nil
  | count + 1 => orderedInsert_outranks (ranking_outranks count) fun _ member => mem_ranking.mp member

/-- The place of a position is the number of positions ahead of it. -/
theorem getElem?_ranking_iff {count position index : Nat} (inside : position < count) :
    (ranking score count)[index]? = some position ↔
      (List.range count).countP (fun other => decide (Outranks score other position)) = index := by
  have place {index : Nat} (found : (ranking score count)[index]? = some position) :
      (List.range count).countP (fun other => decide (Outranks score other position)) = index := by
    rw [← (@ranking_perm _ _ score count).countP_eq]
    exact countP_before outranks_irrefl outranks_asymm (ranking_outranks count) found
  constructor
  · exact place
  · rintro rfl
    obtain ⟨index, found⟩ := List.getElem?_of_mem (mem_ranking.mpr inside : position ∈ ranking score count)
    rwa [place found]

/-! ## The best of them -/

/-- The first `size` positions of the order on the first `count`. -/
structure TopOf (score : Nat → Score) (count size : Nat) (chosen : List Nat) : Prop where
  length : chosen.length = size
  inside : ∀ position ∈ chosen, position < count
  nodup : chosen.Nodup
  ordered : chosen.Pairwise (Outranks score)
  ahead : ∀ position < count, position ∉ chosen → ∀ one ∈ chosen, Outranks score one position

theorem topOf_take {count size : Nat} (few : size ≤ count) :
    TopOf score count size ((ranking score count).take size) where
  length := by rw [List.length_take, length_ranking, Nat.min_eq_left few]
  inside := fun position member => (@mem_ranking _ _ score _ _).mp (List.mem_of_mem_take member)
  nodup := (@ranking_nodup _ _ score count).sublist (List.take_sublist _ _)
  ordered := (ranking_outranks count).sublist (List.take_sublist _ _)
  ahead := fun position inside absent one chosen => by
    have member : position ∈ (ranking score count).take size ++ (ranking score count).drop size := by
      rw [List.take_append_drop]
      exact mem_ranking.mpr inside
    have later := (List.mem_append.mp member).resolve_left absent
    have ordered := @ranking_outranks _ _ score count
    rw [← List.take_append_drop size (ranking score count)] at ordered
    exact (List.pairwise_append.mp ordered).2.2 one chosen position later

end KairosEngine.Library
