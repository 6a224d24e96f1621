import KairosEngine.Daemon.SpecStep
import Mathlib.Data.List.Induction

/-!
# The greedy pickers

`sampler.rs` and `spec.rs` pick by `max_by`, which keeps the last of equal maxima; `dialogue.rs` and
the telepathy loop scan for a strictly greater logit and keep the first.
-/

namespace KairosEngine.Daemon

open KairosEngine.Library

/-- `sampler::argmax`, in the words of `spec::argmax`. -/
def samplerArgmax (logits : List Ieee) : Int := argmax logits

/-- One round of a scan from minus infinity. -/
def greaterThanBest (best : Int × Ieee) (entry : Ieee × Nat) : Int × Ieee :=
  if best.2.lt entry.1 then (Int.bmod entry.2 (2 ^ 32), entry.1) else best

def strictScan (logits : List Ieee) : Int := (logits.zipIdx.foldl greaterThanBest (0, .negInf)).1

/-- `dialogue::argmax`. -/
def dialogueArgmax (logits : List Ieee) : Int := strictScan logits

/-- The closure of `run_telepathy_native`. -/
def telepathyArgmax (logits : List Ieee) : Int := strictScan logits

/-! ## Positions of a greatest logit -/

def Ordered (row : List Ieee) : Prop := ∀ logit ∈ row, logit.isNan = false

/-- A position whose logit no other exceeds. -/
def GreatestAt (row : List Ieee) (index : Nat) : Prop :=
  ∃ logit, row[index]? = some logit ∧ ∀ other ∈ row, logit.lt other = false

theorem lt_trans_false {first second third : Ieee} (ordered : second.isNan = false)
    (left : first.lt second = false) (right : second.lt third = false) :
    first.lt third = false := by
  cases first <;> cases second <;> cases third <;> simp_all [Ieee.lt, Ieee.isNan]
  linarith

theorem lt_false_of_lt {left right : Ieee} (below : left.lt right = true) :
    right.lt left = false := by
  cases left <;> cases right <;> simp_all [Ieee.lt]
  linarith

theorem lt_irrefl (logit : Ieee) : logit.lt logit = false := by
  cases logit <;> simp [Ieee.lt]

/-- The last position of a greatest logit. -/
structure Last (row : List Ieee) (holder : Ieee × Nat) : Prop where
  found : row[holder.2]? = some holder.1
  greatest : ∀ other ∈ row, holder.1.lt other = false
  later : ∀ k other, row[k]? = some other → holder.2 < k → other.lt holder.1 = true

/-- The first position of a greatest logit. -/
structure First (row : List Ieee) (index : Nat) (best : Ieee) : Prop where
  found : row[index]? = some best
  greatest : ∀ other ∈ row, best.lt other = false
  earlier : ∀ k other, row[k]? = some other → k < index → other.lt best = true

theorem ordered_concat {row : List Ieee} {logit : Ieee} (ordered : Ordered (row ++ [logit])) :
    Ordered row ∧ logit.isNan = false :=
  ⟨fun other member => ordered other (List.mem_append_left _ member),
    ordered logit (List.mem_append_right _ (List.mem_singleton_self logit))⟩

theorem getElem?_concat {row : List Ieee} {logit other : Ieee} {k : Nat}
    (present : (row ++ [logit])[k]? = some other) :
    row[k]? = some other ∨ k = row.length ∧ other = logit := by
  by_cases inside : k < row.length
  · rw [List.getElem?_append_left inside] at present
    exact Or.inl present
  · have bound := (List.getElem?_eq_some_iff.mp present).1
    rw [List.length_append, List.length_singleton] at bound
    obtain rfl : k = row.length := by omega
    rw [List.getElem?_concat_length] at present
    exact Or.inr ⟨rfl, (Option.some.inj present).symm⟩

theorem lt_of_lt_false {first second third : Ieee} (ordered : first.isNan = false)
    (left : second.lt first = false) (right : second.lt third = true) :
    first.lt third = true := by
  cases first <;> cases second <;> cases third <;> simp_all [Ieee.lt, Ieee.isNan]
  linarith

theorem Last.concat {row : List Ieee} {holder : Ieee × Nat} {logit : Ieee}
    (last : Last row holder) (ordered : Ordered row) :
    ∃ next, laterUnlessBelow (some holder) (logit, row.length) = some next ∧
      Last (row ++ [logit]) next := by
  obtain ⟨best, index⟩ := holder
  have inside := (List.getElem?_eq_some_iff.mp last.found).1
  by_cases below : logit.lt best = true
  · refine ⟨(best, index), if_pos below, ?_, ?_, ?_⟩
    · rw [List.getElem?_append_left inside]
      exact last.found
    · intro other member
      rcases List.mem_append.mp member with old | new
      · exact last.greatest other old
      · rw [List.mem_singleton.mp new]
        exact lt_false_of_lt below
    · intro k other present after
      rcases getElem?_concat present with old | ⟨-, rfl⟩
      · exact last.later k other old after
      · exact below
  · refine ⟨(logit, row.length), if_neg below, List.getElem?_concat_length, ?_, ?_⟩
    · intro other member
      rcases List.mem_append.mp member with old | new
      · have kept := ordered best (List.mem_of_getElem? last.found)
        exact lt_trans_false kept (Bool.not_eq_true _ ▸ below) (last.greatest other old)
      · rw [List.mem_singleton.mp new]
        exact lt_irrefl logit
    · intro k other present after
      have bound := (List.getElem?_eq_some_iff.mp present).1
      rw [List.length_append, List.length_singleton] at bound
      exact absurd after (by dsimp only; omega)

theorem First.concat {row : List Ieee} {index : Nat} {best logit : Ieee}
    (first : First row index best) (ordered : Ordered row) :
    ∃ (index' : Nat) (best' : Ieee), greaterThanBest (Int.bmod index (2 ^ 32), best) (logit, row.length) =
        (Int.bmod index' (2 ^ 32), best') ∧ First (row ++ [logit]) index' best' := by
  have inside := (List.getElem?_eq_some_iff.mp first.found).1
  by_cases above : best.lt logit = true
  · refine ⟨row.length, logit, if_pos above, List.getElem?_concat_length, ?_, ?_⟩
    · intro other member
      rcases List.mem_append.mp member with old | new
      · exact lt_false_of_lt
          (lt_of_lt_false (ordered other old) (first.greatest other old) above)
      · rw [List.mem_singleton.mp new]
        exact lt_irrefl logit
    · intro k other present before
      rcases getElem?_concat present with old | ⟨rfl, -⟩
      · have member := List.mem_of_getElem? old
        exact lt_of_lt_false (ordered other member) (first.greatest other member) above
      · exact absurd before (Nat.lt_irrefl _)
  · refine ⟨index, best, if_neg above, ?_, ?_, ?_⟩
    · rw [List.getElem?_append_left inside]
      exact first.found
    · intro other member
      rcases List.mem_append.mp member with old | new
      · exact first.greatest other old
      · rw [List.mem_singleton.mp new]
        exact Bool.not_eq_true _ ▸ above
    · intro k other present before
      rcases getElem?_concat present with old | ⟨rfl, -⟩
      · exact first.earlier k other old before
      · exact absurd before (Nat.not_lt.mpr inside.le)

/-! ## The two scans -/

theorem argmax_last {row : List Ieee} (nonempty : row ≠ []) (ordered : Ordered row) :
    ∃ holder, row.zipIdx.foldl laterUnlessBelow none = some holder ∧ Last row holder := by
  induction row using List.reverseRecOn with
  | nil => exact absurd rfl nonempty
  | append_singleton row logit inductionHypothesis =>
      rw [List.zipIdx_append, List.foldl_append]
      by_cases empty : row = []
      · subst empty
        refine ⟨(logit, 0), rfl, rfl, ?_, ?_⟩
        · intro other member
          rw [List.mem_singleton.mp member]
          exact lt_irrefl logit
        · intro k other present after
          have bound := (List.getElem?_eq_some_iff.mp present).1
          exact absurd bound (Nat.not_lt.mpr after)
      · obtain ⟨holder, folded, last⟩ := inductionHypothesis empty (ordered_concat ordered).1
        rw [folded]
        simpa using last.concat (ordered_concat ordered).1

theorem strictScan_first {row : List Ieee} (nonempty : row ≠ []) (ordered : Ordered row) :
    ∃ (index : Nat) (best : Ieee), row.zipIdx.foldl greaterThanBest (0, .negInf) =
        (Int.bmod index (2 ^ 32), best) ∧ First row index best := by
  induction row using List.reverseRecOn with
  | nil => exact absurd rfl nonempty
  | append_singleton row logit inductionHypothesis =>
      rw [List.zipIdx_append, List.foldl_append]
      by_cases empty : row = []
      · subst empty
        -- A first logit that is not above minus infinity is minus infinity.
        have started : [logit].zipIdx.foldl greaterThanBest (0, .negInf) = (0, logit) := by
          have number := (ordered_concat ordered).2
          cases logit with
          | nan => cases number
          | negInf => rfl
          | finite value => simp [greaterThanBest, Ieee.lt]
          | posInf => simp [greaterThanBest, Ieee.lt]
        have zero : Int.bmod (0 : Nat) (2 ^ 32) = 0 := Int.zero_bmod
        refine ⟨0, logit, by rw [zero]; exact started, rfl, ?_, fun k _ _ below =>
          absurd below (Nat.not_lt_zero k)⟩
        intro other member
        rw [List.mem_singleton.mp member]
        exact lt_irrefl logit
      · obtain ⟨index, best, folded, first⟩ := inductionHypothesis empty (ordered_concat ordered).1
        rw [folded]
        simpa using first.concat (ordered_concat ordered).1

theorem Last.greatestAt_le {row : List Ieee} {holder : Ieee × Nat} (last : Last row holder)
    {k : Nat} (greatest : GreatestAt row k) : k ≤ holder.2 := by
  obtain ⟨logit, present, above⟩ := greatest
  by_contra after
  have below := last.later k logit present (Nat.lt_of_not_le after)
  rw [above holder.1 (List.mem_of_getElem? last.found)] at below
  cases below

theorem First.le_greatestAt {row : List Ieee} {index : Nat} {best : Ieee}
    (first : First row index best) {k : Nat} (greatest : GreatestAt row k) : index ≤ k := by
  obtain ⟨logit, present, above⟩ := greatest
  by_contra before
  have below := first.earlier k logit present (Nat.lt_of_not_le before)
  rw [above best (List.mem_of_getElem? first.found)] at below
  cases below

theorem bmod_eq_bmod_iff {left right : Nat} :
    Int.bmod left (2 ^ 32) = Int.bmod right (2 ^ 32) ↔ left % 2 ^ 32 = right % 2 ^ 32 := by
  constructor
  · intro same
    have residue := congrArg (· % ((2 ^ 32 : Nat) : Int)) same
    simp only [Int.bmod_emod] at residue
    omega
  · intro same
    rw [← Int.emod_bmod left, ← Int.emod_bmod right]
    congr 1
    omega

/-- All pickers return the same id. -/
def PickersAgree (row : List Ieee) : Prop :=
  samplerArgmax row = argmax row ∧ dialogueArgmax row = argmax row ∧
    telepathyArgmax row = argmax row

instance (row : List Ieee) : Decidable (PickersAgree row) := inferInstanceAs (Decidable (_ ∧ _))

/-- The pickers agree where the first and the last position of the greatest logit are the same id:
below 2^32 logits, where it stands at one position. -/
theorem pickersAgree_iff {row : List Ieee} (nonempty : row ≠ []) (ordered : Ordered row) :
    (PickersAgree row ↔ ∀ first last : Nat, GreatestAt row first → GreatestAt row last →
      (∀ k, GreatestAt row k → first ≤ k ∧ k ≤ last) → first % 2 ^ 32 = last % 2 ^ 32) ∧
    (row.length ≤ 2 ^ 32 → (PickersAgree row ↔ ∃! index, GreatestAt row index)) := by
  obtain ⟨⟨highest, last⟩, folded, isLast⟩ := argmax_last nonempty ordered
  obtain ⟨first, best, scanned, isFirst⟩ := strictScan_first nonempty ordered
  have served : argmax row = Int.bmod last (2 ^ 32) := by rw [argmax, folded]
  have strict : strictScan row = Int.bmod first (2 ^ 32) := by rw [strictScan, scanned]
  have firstGreatest : GreatestAt row first := ⟨best, isFirst.found, isFirst.greatest⟩
  have lastGreatest : GreatestAt row last := ⟨highest, isLast.found, isLast.greatest⟩
  have agree : PickersAgree row ↔ first % 2 ^ 32 = last % 2 ^ 32 := by
    rw [PickersAgree, samplerArgmax, dialogueArgmax, telepathyArgmax, strict, served,
      @bmod_eq_bmod_iff first last]
    exact ⟨fun all => all.2.1, fun same => ⟨rfl, same, same⟩⟩
  constructor
  · rw [agree]
    constructor
    · intro same i j greatestI greatestJ between
      obtain rfl : i = first :=
        le_antisymm (between first firstGreatest).1 (isFirst.le_greatestAt greatestI)
      obtain rfl : j = last :=
        le_antisymm (isLast.greatestAt_le greatestJ) (between last lastGreatest).2
      exact same
    · intro all
      exact all first last firstGreatest lastGreatest fun k greatest =>
        ⟨isFirst.le_greatestAt greatest, isLast.greatestAt_le greatest⟩
  · intro short
    have inside := (List.getElem?_eq_some_iff.mp isLast.found).1
    have ordered := isLast.greatestAt_le firstGreatest
    dsimp only at inside ordered
    rw [agree, Nat.mod_eq_of_lt (by omega), Nat.mod_eq_of_lt (by omega)]
    constructor
    · rintro rfl
      exact ⟨first, firstGreatest, fun k greatest =>
        le_antisymm (isLast.greatestAt_le greatest) (isFirst.le_greatestAt greatest)⟩
    · rintro ⟨index, -, only⟩
      rw [only first firstGreatest, only last lastGreatest]

theorem pickersAgree_single :
    PickersAgree [.finite 1, .finite 5, .negInf, .finite 3] ↔
      ∃! index, GreatestAt [.finite 1, .finite 5, .negInf, .finite 3] index :=
  (pickersAgree_iff (by decide) (by unfold Ordered; decide)).2 (by decide)

/-- The row of `argmax_first_on_tie`. -/
theorem pickers_differ :
    dialogueArgmax [.finite 5, .finite 5, .finite 5] = 0 ∧
      samplerArgmax [.finite 5, .finite 5, .finite 5] = 2 ∧
      ¬ PickersAgree [.finite 5, .finite 5, .finite 5] := by
  decide

end KairosEngine.Daemon
