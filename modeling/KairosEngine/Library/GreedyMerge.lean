import Mathlib.Order.Lattice
import Mathlib.Tactic.Common

/-!
# Merging the best neighbours until none is left

A list of symbols and a partial rank of neighbours.  The best pair has the lowest rank,
leftmost on ties; it is joined, and the list is scanned again.
-/

namespace KairosEngine.Library.GreedyMerge

universe u v

variable {Symbol : Type u} {Rank : Type v}

section Scan

variable (rank : Symbol → Symbol → Option Rank)

def rankAt (symbols : List Symbol) (position : Nat) : Option Rank :=
  symbols[position]?.bind fun left => symbols[position + 1]?.bind fun right => rank left right

variable {rank} {symbols : List Symbol}

theorem rankAt_eq {position : Nat} {left right : Symbol} (atLeft : symbols[position]? = some left)
    (atRight : symbols[position + 1]? = some right) :
    rankAt rank symbols position = rank left right := by
  rw [rankAt, atLeft, atRight, Option.bind_some, Option.bind_some]

theorem rankAt_inside {position : Nat} {found : Rank}
    (ranked : rankAt rank symbols position = some found) : position + 1 < symbols.length := by
  unfold rankAt at ranked
  simp only [Option.bind_eq_some_iff] at ranked
  obtain ⟨_, _, _, present, _⟩ := ranked
  exact (List.getElem?_eq_some_iff.mp present).1

variable (rank) [LinearOrder Rank]

/-- Scan the first positions for the lowest rank, leftmost on ties. -/
def bestBelow (symbols : List Symbol) (bound : Nat) : Option (Rank × Nat) :=
  (List.range bound).foldl
    (fun best position =>
      match rankAt rank symbols position with
      | some found =>
          if best.all fun pair : Rank × Nat => decide (found < pair.1) then some (found, position)
          else best
      | none => best)
    none

def bestPair (symbols : List Symbol) : Option (Rank × Nat) :=
  bestBelow rank symbols symbols.length

/-- What a scan has found. -/
def Best (symbols : List Symbol) (bound : Nat) : Option (Rank × Nat) → Prop
  | none => ∀ position < bound, rankAt rank symbols position = none
  | some (found, position) =>
      position < bound ∧ rankAt rank symbols position = some found ∧
        ∀ other < bound, ∀ value, rankAt rank symbols other = some value →
          found < value ∨ found = value ∧ position ≤ other

variable {rank}

/-- A scan that ends on a better pair, or keeps what it had. -/
theorem Best.succ {bound : Nat} {best : Option (Rank × Nat)} (scanned : Best rank symbols bound best) :
    Best rank symbols (bound + 1)
      (match rankAt rank symbols bound with
      | some found =>
          if best.all fun pair : Rank × Nat => decide (found < pair.1) then some (found, bound)
          else best
      | none => best) := by
  have split_below : ∀ {other}, other < bound + 1 → other = bound ∨ other < bound := by
    intro other below
    omega
  cases here : rankAt rank symbols bound with
  | none =>
      cases best with
      | none =>
          intro position below
          rcases split_below below with rfl | earlier
          · exact here
          · exact scanned position earlier
      | some pair =>
          obtain ⟨below, found, least⟩ := scanned
          refine ⟨Nat.lt_succ_of_lt below, found, ?_⟩
          intro other otherBelow value known
          rcases split_below otherBelow with rfl | earlier
          · rw [here] at known
            cases known
          · exact least other earlier value known
  | some value =>
      cases best with
      | none =>
          refine ⟨Nat.lt_succ_self bound, here, ?_⟩
          intro other otherBelow found known
          rcases split_below otherBelow with rfl | earlier
          · exact Or.inr ⟨Option.some.inj (here.symm.trans known), Nat.le_refl _⟩
          · rw [scanned other earlier] at known
            cases known
      | some pair =>
          obtain ⟨below, found, least⟩ := scanned
          simp only [Option.all_some, decide_eq_true_eq]
          by_cases better : value < pair.1
          · rw [if_pos better]
            refine ⟨Nat.lt_succ_self bound, here, ?_⟩
            intro other otherBelow found' known
            rcases split_below otherBelow with rfl | earlier
            · exact Or.inr ⟨Option.some.inj (here.symm.trans known), Nat.le_refl _⟩
            · rcases least other earlier found' known with less | ⟨same, _⟩
              · exact Or.inl (better.trans less)
              · exact Or.inl (same ▸ better)
          · rw [if_neg better]
            refine ⟨Nat.lt_succ_of_lt below, found, ?_⟩
            intro other otherBelow found' known
            rcases split_below otherBelow with rfl | earlier
            · have equal : value = found' := Option.some.inj (here.symm.trans known)
              rcases lt_or_eq_of_le (not_lt.mp better) with less | same
              · exact Or.inl (equal ▸ less)
              · exact Or.inr ⟨equal ▸ same, Nat.le_of_lt below⟩
            · exact least other earlier found' known

variable (rank) in
theorem bestBelow_best (symbols : List Symbol) (bound : Nat) :
    Best rank symbols bound (bestBelow rank symbols bound) := by
  induction bound with
  | zero => exact fun position below => absurd below (Nat.not_lt_zero position)
  | succ bound inductionHypothesis =>
      unfold bestBelow at inductionHypothesis ⊢
      rw [List.range_succ, List.foldl_append, List.foldl_cons, List.foldl_nil]
      exact inductionHypothesis.succ

/-- A scan finds the one pair that no other beats. -/
theorem bestPair_eq_some {found : Rank} {position : Nat}
    (ranked : rankAt rank symbols position = some found)
    (least : ∀ other value, rankAt rank symbols other = some value →
      found < value ∨ found = value ∧ position ≤ other) :
    bestPair rank symbols = some (found, position) := by
  have inside : position < symbols.length := Nat.lt_of_succ_lt (rankAt_inside ranked)
  have best := bestBelow_best rank symbols symbols.length
  unfold bestPair
  cases scan : bestBelow rank symbols symbols.length with
  | none =>
      rw [scan] at best
      rw [best position inside] at ranked
      cases ranked
  | some pair =>
      obtain ⟨value, other⟩ := pair
      rw [scan] at best
      obtain ⟨_, known, wins⟩ := best
      rcases least other value known with less | ⟨rfl, before⟩
      · rcases wins position inside found ranked with more | ⟨same, _⟩
        · exact absurd more less.asymm
        · exact absurd same less.ne'
      · rcases wins position inside found ranked with more | ⟨_, behind⟩
        · exact absurd more (lt_irrefl found)
        · rw [Nat.le_antisymm behind before]

theorem bestPair_eq_none (unranked : ∀ position, rankAt rank symbols position = none) :
    bestPair rank symbols = none := by
  have best := bestBelow_best rank symbols symbols.length
  unfold bestPair
  cases scan : bestBelow rank symbols symbols.length with
  | none => rfl
  | some pair =>
      rw [scan] at best
      obtain ⟨_, ranked, _⟩ := best
      rw [unranked] at ranked
      cases ranked

theorem bestPair_inside {found : Rank} {position : Nat}
    (best : bestPair rank symbols = some (found, position)) : position + 1 < symbols.length := by
  have spec := bestBelow_best rank symbols symbols.length
  unfold bestPair at best
  rw [best] at spec
  exact rankAt_inside spec.2.1

end Scan

section Merge

variable [LinearOrder Rank] (join : Symbol → Symbol → Symbol) (rank : Symbol → Symbol → Option Rank)

/-- Join the symbol at a position with the one behind it. -/
def mergeAt (symbols : List Symbol) (position : Nat) : List Symbol :=
  match symbols[position]?, symbols[position + 1]? with
  | some left, some right => (symbols.set position (join left right)).eraseIdx (position + 1)
  | _, _ => symbols

variable {join} {symbols : List Symbol}

theorem mergeAt_eq {position : Nat} {left right : Symbol}
    (atLeft : symbols[position]? = some left) (atRight : symbols[position + 1]? = some right) :
    mergeAt join symbols position =
      (symbols.set position (join left right)).eraseIdx (position + 1) := by
  rw [mergeAt, atLeft, atRight]

theorem length_mergeAt {position : Nat} (inside : position + 1 < symbols.length) :
    (mergeAt join symbols position).length + 1 = symbols.length := by
  rw [mergeAt_eq (List.getElem?_eq_getElem (Nat.lt_of_succ_lt inside))
    (List.getElem?_eq_getElem inside),
    List.length_eraseIdx_of_lt (by rw [List.length_set]; exact inside), List.length_set]
  omega

theorem getElem?_mergeAt {position : Nat} {left right : Symbol}
    (atLeft : symbols[position]? = some left) (atRight : symbols[position + 1]? = some right)
    (place : Nat) :
    (mergeAt join symbols position)[place]? =
      if place < position then symbols[place]?
      else if place = position then some (join left right)
      else symbols[place + 1]? := by
  have inside := (List.getElem?_eq_some_iff.mp atLeft).1
  rw [mergeAt_eq atLeft atRight, List.getElem?_eraseIdx, List.getElem?_set, List.getElem?_set]
  rcases Nat.lt_trichotomy place position with front | rfl | back
  · rw [if_pos (by omega), if_neg (by omega), if_pos front]
  · rw [if_pos (Nat.lt_succ_self place), if_pos rfl, if_pos inside, if_neg (Nat.lt_irrefl place),
      if_pos rfl]
  · rw [if_neg (by omega), if_neg (by omega), if_neg (by omega), if_neg (by omega)]

variable (join)

/-- Merge the best pair until no neighbours have a rank. -/
def mergeAll (symbols : List Symbol) : List Symbol :=
  match best : bestPair rank symbols with
  | some (_, position) => mergeAll (mergeAt join symbols position)
  | none => symbols
termination_by symbols.length
decreasing_by
  have shorter := @length_mergeAt _ join symbols position (bestPair_inside best)
  omega

variable {rank}

theorem mergeAll_of_best {found : Rank} {position : Nat}
    (best : bestPair rank symbols = some (found, position)) :
    mergeAll join rank symbols = mergeAll join rank (mergeAt join symbols position) := by
  rw [mergeAll]
  split
  next _ _ other =>
    rw [best] at other
    cases other
    rfl
  next none =>
    rw [best] at none
    cases none

theorem mergeAll_of_unranked (unranked : ∀ position, rankAt rank symbols position = none) :
    mergeAll join rank symbols = symbols := by
  have none := bestPair_eq_none unranked
  rw [mergeAll]
  split
  next _ _ best =>
    rw [none] at best
    cases best
  next => rfl

end Merge

end KairosEngine.Library.GreedyMerge
