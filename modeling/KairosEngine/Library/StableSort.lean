import Mathlib.Data.List.Basic
import Mathlib.Data.List.Perm.Basic
import Mathlib.Order.Defs.LinearOrder

/-!
# What a stable sort keeps

A stable sort by a comparison puts the classes of equal entries in order and leaves every class
as it was.  Two lists are sorted to the same list exactly when they agree on every class.
-/

namespace KairosEngine.Library

universe u

variable {Entry : Type u}

/-- A stable sort by a comparison. -/
def stableSort (cmp : Entry → Entry → Ordering) (entries : List Entry) : List Entry :=
  entries.mergeSort fun first second => (cmp first second).isLE

/-- The entries that compare equal to the given one, in their order. -/
def equalTo (cmp : Entry → Entry → Ordering) (entry : Entry) (entries : List Entry) :
    List Entry :=
  entries.filter fun other => cmp entry other == .eq

variable {cmp : Entry → Entry → Ordering} {entries others : List Entry} {entry : Entry}

theorem stableSort_perm : (stableSort cmp entries).Perm entries :=
  List.mergeSort_perm _ _

theorem mem_equalTo {other : Entry} :
    other ∈ equalTo cmp entry entries ↔ other ∈ entries ∧ cmp entry other = .eq := by
  rw [equalTo, List.mem_filter, beq_iff_eq]

theorem equalTo_cons (head : Entry) (rest : List Entry) :
    equalTo cmp entry (head :: rest) =
      if cmp entry head = .eq then head :: equalTo cmp entry rest else equalTo cmp entry rest := by
  simp only [equalTo, List.filter_cons, beq_iff_eq]

variable [Std.TransCmp cmp]

theorem isLE_total (first second : Entry) :
    ((cmp first second).isLE || (cmp second first).isLE) = true := by
  rw [@Std.OrientedCmp.eq_swap _ cmp _ second first]
  cases cmp first second with
  | lt => rfl
  | eq => rfl
  | gt => rfl

theorem stableSort_sorted :
    (stableSort cmp entries).Pairwise fun first second => (cmp first second).isLE = true := by
  apply List.pairwise_mergeSort
  · intro first second third before after
    exact Std.TransCmp.isLE_trans before after
  · exact isLE_total

/-- The entries of a class keep their order. -/
theorem equalTo_stableSort (entry : Entry) :
    equalTo cmp entry (stableSort cmp entries) = equalTo cmp entry entries := by
  have level : (equalTo cmp entry entries).Pairwise
      fun first second => (cmp first second).isLE = true := by
    apply List.pairwise_of_forall_mem_list
    intro first inFirst second inSecond
    have same : cmp first second = .eq := Std.TransCmp.eq_trans
      (Std.OrientedCmp.eq_symm (mem_equalTo.mp inFirst).2) (mem_equalTo.mp inSecond).2
    rw [same]
    rfl
  have kept : List.Sublist (equalTo cmp entry entries) (stableSort cmp entries) := by
    apply List.sublist_mergeSort _ _ level List.filter_sublist
    · intro first second third before after
      exact Std.TransCmp.isLE_trans before after
    · exact isLE_total
  have inside := kept.filter fun other => cmp entry other == .eq
  rw [equalTo, List.filter_filter] at inside
  simp only [Bool.and_self] at inside
  have lengths : ((stableSort cmp entries).filter fun other => cmp entry other == .eq).length =
      (entries.filter fun other => cmp entry other == .eq).length :=
    (stableSort_perm.filter _).length_eq
  exact (inside.eq_of_length lengths.symm).symm

/-- Sorted lists that agree on every class are the same. -/
theorem eq_of_equalTo
    (sorted : entries.Pairwise fun first second => (cmp first second).isLE = true)
    (sortedOthers : others.Pairwise fun first second => (cmp first second).isLE = true)
    (agree : ∀ entry, equalTo cmp entry entries = equalTo cmp entry others) :
    entries = others := by
  induction entries generalizing others with
  | nil =>
      cases others with
      | nil => rfl
      | cons head rest =>
          have empty := agree head
          rw [equalTo_cons, if_pos Std.ReflCmp.compare_self] at empty
          cases empty
  | cons first rest inductionHypothesis =>
      cases others with
      | nil =>
          have empty := agree first
          rw [equalTo_cons, if_pos Std.ReflCmp.compare_self] at empty
          cases empty
      | cons second tail =>
          rw [List.pairwise_cons] at sorted sortedOthers
          have below : (cmp first second).isLE = true := by
            have present : second ∈ equalTo cmp second (second :: tail) :=
              mem_equalTo.mpr ⟨List.mem_cons_self, Std.ReflCmp.compare_self⟩
            rw [← agree second, mem_equalTo] at present
            rcases List.mem_cons.mp present.1 with rfl | later
            · exact Std.ReflCmp.isLE_rfl
            · exact sorted.1 second later
          have above : (cmp second first).isLE = true := by
            have present : first ∈ equalTo cmp first (first :: rest) :=
              mem_equalTo.mpr ⟨List.mem_cons_self, Std.ReflCmp.compare_self⟩
            rw [agree first, mem_equalTo] at present
            rcases List.mem_cons.mp present.1 with rfl | later
            · exact Std.ReflCmp.isLE_rfl
            · exact sortedOthers.1 first later
          have level : cmp first second = .eq := Std.OrientedCmp.isLE_antisymm below above
          have heads := agree first
          rw [equalTo_cons, equalTo_cons, if_pos Std.ReflCmp.compare_self, if_pos level,
            List.cons.injEq] at heads
          obtain ⟨rfl, _⟩ := heads
          congr 1
          apply inductionHypothesis sorted.2 sortedOthers.2
          intro entry
          have classes := agree entry
          rw [equalTo_cons, equalTo_cons] at classes
          by_cases equal : cmp entry first = .eq
          · rw [if_pos equal, if_pos equal, List.cons.injEq] at classes
            exact classes.2
          · rw [if_neg equal, if_neg equal] at classes
            exact classes

/-- A stable sort forgets the order of the classes and nothing else. -/
theorem stableSort_eq_iff :
    stableSort cmp entries = stableSort cmp others ↔
      ∀ entry, equalTo cmp entry entries = equalTo cmp entry others := by
  constructor
  · intro same entry
    have kept := @equalTo_stableSort _ cmp entries _ entry
    rw [← kept, same, equalTo_stableSort]
  · intro agree
    apply eq_of_equalTo stableSort_sorted stableSort_sorted
    intro entry
    rw [equalTo_stableSort, equalTo_stableSort, agree]

/-- A comparison that tells all entries apart leaves nothing of the order they came in. -/
theorem stableSort_eq_of_perm [Std.LawfulEqCmp cmp] (same : entries.Perm others) :
    stableSort cmp entries = stableSort cmp others := by
  apply List.Perm.eq_of_pairwise _ stableSort_sorted stableSort_sorted
  · exact stableSort_perm.trans (same.trans stableSort_perm.symm)
  · intro first second _ _ below above
    exact Std.LawfulEqCmp.eq_of_compare (Std.OrientedCmp.isLE_antisymm below above)

/-- Distinct entries are sorted strictly. -/
theorem stableSort_strict [Std.LawfulEqCmp cmp] (distinct : entries.Nodup) :
    (stableSort cmp entries).Pairwise fun first second => cmp first second = .lt := by
  have apart : (stableSort cmp entries).Pairwise (· ≠ ·) := stableSort_perm.nodup_iff.mpr distinct
  apply (stableSort_sorted.and apart).imp
  rintro first second ⟨below, different⟩
  cases order : cmp first second with
  | lt => rfl
  | eq => exact absurd (Std.LawfulEqCmp.eq_of_compare order) different
  | gt =>
      rw [order] at below
      nomatch below

/-- What a cut leaves out of distinct sorted entries stands behind all that it keeps. -/
theorem stableSort_take_lt [Std.LawfulEqCmp cmp] (distinct : entries.Nodup) {count : Nat}
    {kept left : Entry} (inside : kept ∈ (stableSort cmp entries).take count)
    (present : left ∈ entries) (outside : left ∉ (stableSort cmp entries).take count) :
    cmp kept left = .lt := by
  have strict := @stableSort_strict _ cmp _ _ _ distinct
  rw [← List.take_append_drop count (stableSort cmp entries), List.pairwise_append] at strict
  have behind : left ∈ (stableSort cmp entries).drop count := by
    have whole := (@stableSort_perm _ cmp entries).mem_iff.mpr present
    rw [← List.take_append_drop count (stableSort cmp entries), List.mem_append] at whole
    exact whole.resolve_left outside
  exact strict.2.2 kept inside left behind

end KairosEngine.Library
