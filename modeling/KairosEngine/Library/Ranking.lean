import Mathlib.Data.List.Induction
import Mathlib.Order.Lattice

/-!
# The leader of a pool

The leader is the first entry of greatest score.  A stable descending sort puts it at
the head, with the other entries behind it in descending order; a running scan that
replaces its best on strict improvement keeps it.
-/

namespace KairosEngine.Library

universe u v

variable {Alpha : Type u} {Beta : Type v} [LinearOrder Beta] {score : Alpha → Beta}

/-- `best` is the first entry of greatest score and `others` are the entries beside it. -/
def Leads (score : Alpha → Beta) (pool : List Alpha) (best : Alpha) (others : List Alpha) : Prop :=
  ∃ before after, pool = before ++ best :: after ∧ others = before ++ after ∧
    (∀ entry ∈ before, score entry < score best) ∧ ∀ entry ∈ after, score entry ≤ score best

namespace Leads

theorem singleton (entry : Alpha) : Leads score [entry] entry [] :=
  ⟨[], [], rfl, rfl, by simp, by simp⟩

theorem mem {pool others : List Alpha} {best : Alpha} (leads : Leads score pool best others) :
    best ∈ pool := by
  rcases leads with ⟨before, after, rfl, -, -, -⟩
  simp

theorem le {pool others : List Alpha} {best : Alpha} (leads : Leads score pool best others) :
    ∀ entry ∈ others, score entry ≤ score best := by
  rcases leads with ⟨before, after, -, rfl, below, atMost⟩
  intro entry membership
  rcases List.mem_append.mp membership with earlier | later
  · exact le_of_lt (below entry earlier)
  · exact atMost entry later

theorem perm {pool others : List Alpha} {best : Alpha} (leads : Leads score pool best others) :
    pool.Perm (best :: others) := by
  rcases leads with ⟨before, after, rfl, rfl, -, -⟩
  exact List.perm_middle

theorem subset {pool others : List Alpha} {best : Alpha} (leads : Leads score pool best others) :
    ∀ entry ∈ others, entry ∈ pool := by
  intro entry membership
  exact leads.perm.symm.subset (List.mem_cons_of_mem _ membership)

/-- A strictly better newcomer leads. -/
theorem overtake {pool others : List Alpha} {best newcomer : Alpha}
    (leads : Leads score pool best others) (better : score best < score newcomer) :
    Leads score (pool ++ [newcomer]) newcomer pool := by
  refine ⟨pool, [], rfl, (List.append_nil pool).symm, ?_, by simp⟩
  intro entry membership
  rcases List.mem_cons.mp (leads.perm.subset membership) with rfl | other
  · exact better
  · exact lt_of_le_of_lt (leads.le entry other) better

/-- A newcomer that is no better joins the others. -/
theorem follow {pool others : List Alpha} {best newcomer : Alpha}
    (leads : Leads score pool best others) (noBetter : score newcomer ≤ score best) :
    Leads score (pool ++ [newcomer]) best (others ++ [newcomer]) := by
  rcases leads with ⟨before, after, rfl, rfl, below, atMost⟩
  refine ⟨before, after ++ [newcomer], by simp, by simp, below, ?_⟩
  intro entry membership
  rcases List.mem_append.mp membership with earlier | last
  · exact atMost entry earlier
  · rw [List.mem_singleton.mp last]
    exact noBetter

theorem unique {pool others others' : List Alpha} {best best' : Alpha}
    (leads : Leads score pool best others) (leads' : Leads score pool best' others') :
    best = best' ∧ others = others' := by
  rcases leads with ⟨before, after, rfl, rfl, below, atMost⟩
  rcases leads' with ⟨before', after', same, rfl, below', atMost'⟩
  rcases List.append_eq_append_iff.mp same with ⟨middle, rfl, split⟩ | ⟨middle, rfl, split⟩
  · cases middle with
    | nil =>
        rw [List.nil_append, List.cons.injEq] at split
        simp [split.1, split.2]
    | cons head rest =>
        rw [List.cons_append, List.cons.injEq] at split
        rcases split with ⟨rfl, rfl⟩
        -- the other leader would stand strictly above an entry that bounds it
        have above := below' best (by simp)
        have bounded := atMost best' (by simp)
        exact absurd above (not_lt_of_ge bounded)
  · cases middle with
    | nil =>
        rw [List.nil_append, List.cons.injEq] at split
        simp [split.1, split.2]
    | cons head rest =>
        rw [List.cons_append, List.cons.injEq] at split
        rcases split with ⟨rfl, rfl⟩
        have above := below best' (by simp)
        have bounded := atMost' best (by simp)
        exact absurd above (not_lt_of_ge bounded)

end Leads

theorem exists_leads (score : Alpha → Beta) (pool : List Alpha) :
    pool = [] ∨ ∃ best others, Leads score pool best others := by
  induction pool using List.reverseRecOn with
  | nil => exact Or.inl rfl
  | append_singleton pool newcomer inductionHypothesis =>
      apply Or.inr
      rcases inductionHypothesis with rfl | ⟨best, others, leads⟩
      · exact ⟨newcomer, [], Leads.singleton newcomer⟩
      · rcases lt_or_ge (score best) (score newcomer) with better | noBetter
        · exact ⟨newcomer, pool, leads.overtake better⟩
        · exact ⟨best, others ++ [newcomer], leads.follow noBetter⟩

/-! ## The stable descending sort -/

/-- Descending by score, ties in the order of the pool. -/
def rankDescending (score : Alpha → Beta) (pool : List Alpha) : List Alpha :=
  pool.mergeSort fun left right => decide (score right ≤ score left)

theorem rankDescending_perm (score : Alpha → Beta) (pool : List Alpha) :
    (rankDescending score pool).Perm pool := List.mergeSort_perm _ _

theorem rankDescending_sorted (score : Alpha → Beta) (pool : List Alpha) :
    (rankDescending score pool).Pairwise fun left right => score right ≤ score left := by
  have pairs := @List.pairwise_mergeSort Alpha
    (fun left right => decide (score right ≤ score left))
    (fun first second third => by simpa using fun lower upper => le_trans upper lower)
    (fun first second => by simpa using le_total (score second) (score first)) pool
  exact pairs.imp fun ordered => of_decide_eq_true ordered

theorem rankDescending_cons (score : Alpha → Beta) (head : Alpha) (tail : List Alpha) :
    ∃ above below, rankDescending score (head :: tail) = above ++ head :: below ∧
      rankDescending score tail = above ++ below ∧ ∀ entry ∈ above, score head < score entry := by
  obtain ⟨above, below, whole, rest, higher⟩ := @List.mergeSort_cons Alpha
    (fun left right => decide (score right ≤ score left))
    (fun first second third => by simpa using fun lower upper => le_trans upper lower)
    (fun first second => by simpa using le_total (score second) (score first)) head tail
  refine ⟨above, below, whole, rest, fun entry membership => ?_⟩
  simpa using higher entry membership

/-- The leader heads the sort, and the others follow in descending order. -/
theorem Leads.rankDescending_eq {pool others : List Alpha} {best : Alpha}
    (leads : Leads score pool best others) :
    ∃ rest, rankDescending score pool = best :: rest ∧ rest.Perm others ∧
      ∀ entry ∈ others, ∀ second ∈ rest.head?, score entry ≤ score second := by
  have sorted := rankDescending_sorted score pool
  have headed : ∃ rest, rankDescending score pool = best :: rest := by
    clear sorted
    rcases leads with ⟨before, after, rfl, -, below, atMost⟩
    induction before with
    | nil =>
        obtain ⟨above, rest, whole, split, higher⟩ := rankDescending_cons score best after
        cases above with
        | nil => exact ⟨rest, whole⟩
        | cons first above =>
            have membership : first ∈ after := by
              apply (rankDescending_perm score after).subset
              rw [split]
              simp
            exact absurd (higher first (by simp)) (not_lt_of_ge (atMost first membership))
    | cons head before inductionHypothesis =>
        obtain ⟨rest, ranked⟩ := inductionHypothesis fun entry membership =>
          below entry (List.mem_cons_of_mem _ membership)
        obtain ⟨above, lower, whole, split, higher⟩ :=
          rankDescending_cons score head (before ++ best :: after)
        rw [ranked] at split
        cases above with
        | cons first above =>
            rw [List.cons_append, List.cons.injEq] at split
            exact ⟨above ++ head :: lower, by rw [List.cons_append, whole, split.1]; rfl⟩
        | nil =>
            -- the head would stand in front of the leader, which is strictly better
            have ordered := rankDescending_sorted score (head :: (before ++ best :: after))
            rw [whole, List.nil_append] at ordered
            rw [List.nil_append] at split
            have bounded := (List.pairwise_cons.mp ordered).1 best (by rw [← split]; simp)
            exact absurd (below head List.mem_cons_self) (not_lt_of_ge bounded)
  obtain ⟨rest, ranked⟩ := headed
  have same : rest.Perm others := by
    have whole := (rankDescending_perm score pool).trans leads.perm
    rw [ranked] at whole
    exact whole.cons_inv
  refine ⟨rest, ranked, same, ?_⟩
  intro entry membership second isSecond
  rw [ranked] at sorted
  have tail := (List.pairwise_cons.mp sorted).2
  cases rest with
  | nil => simp at isSecond
  | cons head rest =>
      have found : head = second := by simpa using isSecond
      subst found
      rcases List.mem_cons.mp (same.symm.subset membership) with rfl | later
      · exact le_refl _
      · exact (List.pairwise_cons.mp tail).1 entry later

end KairosEngine.Library
