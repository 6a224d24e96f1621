import KairosEngine.Daemon.Sampler

/-!
# The thought ceiling

When `think_max` tokens are spent and the channel is still open, the ceiling masks everything
but the close id.  The other masks write into the same row and may take the close id as well.
-/

namespace KairosEngine.Daemon

open KairosEngine.Library

namespace Sampler

/-- The token budget is spent and no close token has been observed. -/
def Spent (sampler : Sampler) (close : Int) : Prop :=
  sampler.thinkMax ≤ sampler.history.length ∧ close ∉ sampler.history

instance (sampler : Sampler) (close : Int) : Decidable (sampler.Spent close) :=
  inferInstanceAs (Decidable (_ ∧ _))

/-- No mask but the ceiling takes the close id, or it is the last id of the row. -/
def CloseSurvives (sampler : Sampler) (close : Int) (row : List Ieee) : Prop :=
  ¬ (close ∈ sampler.suppress ∨ sampler.Floors close.toNat ∨ sampler.Bans close.toNat) ∨
    Int.bmod (row.length - 1 : Nat) (2 ^ 32) = close

instance (sampler : Sampler) (close : Int) (row : List Ieee) :
    Decidable (sampler.CloseSurvives close row) :=
  inferInstanceAs (Decidable (¬ (_ ∨ (_ ∧ _ ∧ _) ∨ (_ ∧ _)) ∨ _))

/-- A row of finite logits with the close id in it. -/
structure HasClose (close : Int) (row : List Ieee) : Prop where
  finite : ∀ logit ∈ row, logit.isFinite = true
  inside : close.toNat < row.length

/-- A greedy sampler with a token budget that knows whether the close token was observed. -/
structure Armed (close : Int) (sampler : Sampler) : Prop where
  greedy : sampler.isGreedy = true
  budget : 0 < sampler.thinkMax
  closes : sampler.thinkClose = some close
  closed : sampler.thinkClosed = decide (close ∈ sampler.history)

section Steps

variable {draw : Sampler → List Ieee → Int} {sampler : Sampler} {close : Int}

theorem Armed.decodeOne (armed : Armed close sampler) (input : Nat × List Ieee) :
    Armed close (sampler.decodeOne draw input) := by
  obtain ⟨forced, next⟩ := @decodeOne_eq draw sampler input
  rw [next]
  refine ⟨armed.greedy, armed.budget, armed.closes, ?_⟩
  simp only [armed.closed, armed.closes, List.mem_append, List.mem_singleton, Option.some.injEq,
    Bool.decide_or]

theorem Armed.forces (armed : Armed close sampler) (natural : 0 ≤ close)
    (spent : sampler.Spent close) {row : List Ieee} (inside : close.toNat < row.length)
    (elapsed : Nat) : sampler.forces elapsed row = some close.toNat := by
  have opened : sampler.thinkClosed = false := armed.closed.trans (decide_eq_false spent.2)
  have budget : sampler.thoughtBudgetSpent elapsed = true := by
    rw [thoughtBudgetSpent, decide_eq_true ⟨armed.budget, spent.1⟩, Bool.true_or]
  simp only [Sampler.forces, opened, budget, armed.closes, Bool.not_false, Bool.and_self, if_true,
    if_pos (And.intro natural inside)]

/-- With the budget spent, the token is the close id exactly when it survives the other masks. -/
theorem sample_spent_iff (armed : Armed close sampler) (natural : 0 ≤ close)
    (small : close < 2 ^ 31) (spent : sampler.Spent close) {row : List Ieee}
    (has : HasClose close row) (elapsed : Nat) :
    (sampler.sample draw elapsed row).1 = close ↔ sampler.CloseSurvives close row := by
  have forced := armed.forces natural spent has.inside elapsed
  have place : (close.toNat : Int) = close := Int.toNat_of_nonneg natural
  have only : ∀ index, ¬ sampler.Masks elapsed row index → index = close.toNat := by
    intro index spared
    by_contra apart
    exact spared (Or.inl (Or.inr ⟨close.toNat, forced, apart⟩))
  have nonempty : row ≠ [] := by
    rintro rfl
    cases has.inside
  have masks : sampler.Masks elapsed row close.toNat ↔
      (close ∈ sampler.suppress ∨ sampler.Floors close.toNat ∨ sampler.Bans close.toNat) := by
    constructor
    · rintro (((suppressed | floors) | ⟨other, here, apart⟩) | bans)
      · exact Or.inl (place ▸ suppressed)
      · exact Or.inr (Or.inl floors)
      · exact absurd (Option.some.inj (forced.symm.trans here)) apart
      · exact Or.inr (Or.inr bans)
    · rintro (suppressed | floors | bans)
      · exact Or.inl (Or.inl (Or.inl (place.symm ▸ suppressed)))
      · exact Or.inl (Or.inl (Or.inr floors))
      · exact Or.inr bans
  rw [CloseSurvives, ← masks]
  by_cases taken : sampler.Masks elapsed row close.toNat
  · have blanks := sampler.masked_blanks elapsed row
    have all : ∀ logit ∈ sampler.masked elapsed row, logit = .negInf := by
      intro logit member
      rcases blanks.finiteOrMasked has.finite logit member with finite | masked
      · obtain ⟨index, found⟩ := List.mem_iff_getElem?.mp member
        have spared := blanks.not_taken found finite
        rw [only index spared] at spared
        exact absurd taken spared
      · exact masked
    have present : sampler.masked elapsed row ≠ [] := by
      intro empty
      have length := blanks.length_eq
      rw [empty] at length
      exact nonempty (List.length_eq_zero_iff.mp length.symm)
    rw [sample_greedy armed.greedy nonempty, argmax_allMasked present all, blanks.length_eq]
    exact ⟨Or.inr, fun survives => survives.resolve_left (not_not.mpr taken)⟩
  · obtain ⟨index, -, spared, token⟩ :=
      @sample_unmasked draw _ elapsed _ armed.greedy has.finite _ has.inside taken
    have whole : Int.bmod close.toNat (2 ^ 32) = close := by
      rw [place]
      exact Int.bmod_eq_of_le (by omega) (by omega)
    rw [token, only index spared, whole]
    exact ⟨fun _ => Or.inl taken, fun _ => rfl⟩

/-- Once a close token was observed the ceiling leaves every row alone. -/
theorem capped_closed (armed : Armed close sampler) (observed : close ∈ sampler.history)
    (elapsed : Nat) (row : List Ieee) : sampler.capped elapsed row = row := by
  have closed : sampler.thinkClosed = true := armed.closed.trans (decide_eq_true observed)
  have off : sampler.forces elapsed row = none := by
    simp only [Sampler.forces, closed, Bool.not_true, Bool.false_and, Bool.false_eq_true, if_false]
  rw [capped, off]

end Steps

/-! ## Runs -/

section Runs

variable (draw : Sampler → List Ieee → Int) (sampler : Sampler) (close : Int)
  (inputs : List (Nat × List Ieee))

/-- The sampler behind `count` tokens of the run. -/
def reached (count : Nat) : Sampler := serveAll (decodeOne draw) (inputs.take count) sampler

/-- The first step of the run that finds the budget spent. -/
def FirstSpent (count : Nat) : Prop :=
  (reached draw sampler inputs count).Spent close ∧
    ∀ earlier < count, ¬ (reached draw sampler inputs earlier).Spent close

instance (count : Nat) : Decidable (FirstSpent draw sampler close inputs count) :=
  inferInstanceAs (Decidable (_ ∧ _))

/-- The ceiling closes the channel, and it does so once. -/
structure ClosesOnce : Prop where
  forced : ∀ count elapsed row, inputs[count]? = some (elapsed, row) →
    FirstSpent draw sampler close inputs count →
      ((reached draw sampler inputs count).sample draw elapsed row).1 = close
  once : ∀ count elapsed row, inputs[count]? = some (elapsed, row) →
    close ∈ (reached draw sampler inputs count).history →
      ∀ logits, (reached draw sampler inputs count).capped elapsed logits = logits

theorem Armed.reached {close : Int} {sampler : Sampler} (armed : Armed close sampler)
    (count : Nat) : Armed close (reached draw sampler inputs count) := by
  have preserved : ∀ (input : Nat × List Ieee) (state : Sampler), Armed close state →
      Armed close (Sampler.decodeOne draw input state) :=
    fun input _ armed => armed.decodeOne input
  exact serveAll_preserves preserved (inputs.take count) armed

end Runs

end Sampler

/-- The ceiling closes the channel once exactly if the close id survives the other masks at the
first step that finds the budget spent. -/
theorem closesOnce_iff {draw : Sampler → List Ieee → Int} {sampler : Sampler} {close : Int}
    (greedy : sampler.isGreedy = true) (budget : 0 < sampler.thinkMax)
    (closes : sampler.thinkClose = some close) (natural : 0 ≤ close) (small : close < 2 ^ 31)
    (fresh : sampler.history = []) (opened : sampler.thinkClosed = false)
    (inputs : List (Nat × List Ieee))
    (rows : ∀ input ∈ inputs, Sampler.HasClose close input.2) :
    Sampler.ClosesOnce draw sampler close inputs ↔
      ∀ count elapsed row, inputs[count]? = some (elapsed, row) →
        Sampler.FirstSpent draw sampler close inputs count →
          (Sampler.reached draw sampler inputs count).CloseSurvives close row := by
  have armed : Sampler.Armed close sampler := by
    refine ⟨greedy, budget, closes, ?_⟩
    rw [opened, fresh]
    rfl
  have sampled : ∀ count elapsed row, inputs[count]? = some (elapsed, row) →
      Sampler.FirstSpent draw sampler close inputs count →
        (((Sampler.reached draw sampler inputs count).sample draw elapsed row).1 = close ↔
          (Sampler.reached draw sampler inputs count).CloseSurvives close row) :=
    fun count elapsed row input first =>
      Sampler.sample_spent_iff (armed.reached draw inputs count) natural small first.1
        (rows _ (List.mem_of_getElem? input)) elapsed
  constructor
  · intro closing count elapsed row input first
    exact (sampled count elapsed row input first).mp (closing.forced count elapsed row input first)
  · intro survives
    constructor
    · intro count elapsed row input first
      exact (sampled count elapsed row input first).mpr (survives count elapsed row input first)
    · intro count elapsed _ _ observed logits
      exact Sampler.capped_closed (armed.reached draw inputs count) observed elapsed logits

/-- A floor above the ceiling. -/
def crossedBudgets : Sampler :=
  (((withSuppress (.finite 0) 0 []).setMinThought (some 0) 2).setMaxThought (some 0) 1 0)

theorem closesOnce_crossed :
    ¬ Sampler.ClosesOnce (fun _ _ => 0) crossedBudgets 0
      [(0, [.finite 0, .finite 1]), (0, [.finite 0, .finite 1])] := by
  intro closing
  have forced := closing.forced 1 0 [.finite 0, .finite 1] rfl (by decide)
  exact absurd forced (by decide)

/-- One token of thought, with a suppressed id and an n-gram guard beside the ceiling. -/
def shortThought : Sampler := (withSuppress (.finite 0) 2 [1]).setMaxThought (some 0) 1 0

theorem closesOnce_shortThought :
    Sampler.ClosesOnce (fun _ _ => 0) shortThought 0
      [(0, [.finite 0, .finite 3, .finite 2]), (0, [.finite 0, .finite 1, .finite 2])] := by
  refine (closesOnce_iff (rfl) (by decide) rfl (by decide) (by decide) rfl rfl _ ?_).mpr ?_
  · intro input member
    rcases List.mem_pair.mp member with rfl | rfl
    · exact ⟨by decide, by decide⟩
    · exact ⟨by decide, by decide⟩
  · intro count elapsed row input first
    match count with
    | 0 => exact absurd first (by decide)
    | 1 =>
        cases input
        decide
    | _ + 2 => cases input

end KairosEngine.Daemon
