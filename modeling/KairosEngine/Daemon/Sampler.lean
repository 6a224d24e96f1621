import Mathlib.Data.List.Induction
import KairosEngine.Daemon.SpecStep
import KairosEngine.Library.Loop
import KairosEngine.Library.Windows

/-!
# The sampler

`sample` of `sampler.rs` up to its greedy return: four masks write `-inf` into the row of
logits one after the other, and the argmax of what is left is the token.
-/

namespace KairosEngine.Daemon

open KairosEngine.Library

structure Sampler where
  temperature : Ieee
  noRepeatNgram : Nat
  history : List Int
  suppress : List Int
  ngramPrefix : List Int
  thinkClose : Option Int
  thinkMin : Nat
  thinkMax : Nat
  thinkMaxMs : Nat
  thinkClosed : Bool
  thinkForced : Bool

/-- `with_suppress`; the draws behind the greedy return are left out with their parameters. -/
def withSuppress (temperature : Ieee) (noRepeatNgram : Nat) (suppress : List Int) : Sampler where
  temperature
  noRepeatNgram
  history := []
  suppress
  ngramPrefix := []
  thinkClose := none
  thinkMin := 0
  thinkMax := 0
  thinkMaxMs := 0
  thinkClosed := false
  thinkForced := false

/-- The logit of an id.  The `usize` of a negative id is behind every row. -/
def maskId (row : List Ieee) (id : Int) : List Ieee :=
  if 0 ≤ id then row.set id.toNat .negInf else row

def banRepeatNgram (row : List Ieee) (ngramPrefix history : List Int) (n : Nat) : List Ieee :=
  if n < 2 then row
  else
    let seq := ngramPrefix ++ history
    if seq.length < n then row
    else
      let suffix := seq.drop (seq.length - (n - 1))
      (List.range (seq.length - n + 1)).foldl (fun row i =>
        if window (n - 1) i seq = suffix then maskId row (seq.getD (i + (n - 1)) 0) else row) row

namespace Sampler

def setNgramPrefix (sampler : Sampler) (ngramPrefix : List Int) : Sampler :=
  { sampler with ngramPrefix }

def setNoRepeatNgram (sampler : Sampler) (noRepeatNgram : Nat) : Sampler :=
  { sampler with noRepeatNgram }

def setMinThought (sampler : Sampler) (thinkClose : Option Int) (thinkMin : Nat) : Sampler :=
  { sampler with thinkClose, thinkMin }

def setMaxThought (sampler : Sampler) (closeId : Option Int) (thinkMax thinkMaxMs : Nat) :
    Sampler :=
  { sampler with thinkClose := closeId.or sampler.thinkClose, thinkMax, thinkMaxMs }

/-- With the milliseconds since the turn started. -/
def thoughtBudgetSpent (sampler : Sampler) (elapsed : Nat) : Bool :=
  decide (0 < sampler.thinkMax ∧ sampler.thinkMax ≤ sampler.history.length) ||
    decide (0 < sampler.thinkMaxMs ∧ sampler.thinkMaxMs ≤ elapsed)

def isGreedy (sampler : Sampler) : Bool := sampler.temperature.le (.finite 0)

def observe (sampler : Sampler) (token : Int) : Sampler :=
  { sampler with
    thinkClosed := sampler.thinkClosed || decide (sampler.thinkClose = some token)
    history := sampler.history ++ [token] }

/-! ## The masks -/

def suppressed (sampler : Sampler) (row : List Ieee) : List Ieee :=
  sampler.suppress.foldl maskId row

/-- A minimum thought: the close id is masked until there are `think_min` tokens. -/
def floored (sampler : Sampler) (row : List Ieee) : List Ieee :=
  if 0 < sampler.thinkMin ∧ sampler.history.length < sampler.thinkMin then
    match sampler.thinkClose with
    | some id => maskId row id
    | none => row
  else row

/-- The ceiling forces this index. -/
def forces (sampler : Sampler) (elapsed : Nat) (row : List Ieee) : Option Nat :=
  if !sampler.thinkClosed && sampler.thoughtBudgetSpent elapsed then
    match sampler.thinkClose with
    | some id => if 0 ≤ id ∧ id.toNat < row.length then some id.toNat else none
    | none => none
  else none

/-- A maximum thought: everything but the close id is masked. -/
def capped (sampler : Sampler) (elapsed : Nat) (row : List Ieee) : List Ieee :=
  match sampler.forces elapsed row with
  | some index => row.mapIdx fun i logit => if i ≠ index then .negInf else logit
  | none => row

def banned (sampler : Sampler) (row : List Ieee) : List Ieee :=
  if 2 ≤ sampler.noRepeatNgram then
    banRepeatNgram row sampler.ngramPrefix sampler.history sampler.noRepeatNgram
  else row

/-- The row that the greedy return sees. -/
def masked (sampler : Sampler) (elapsed : Nat) (row : List Ieee) : List Ieee :=
  sampler.banned (sampler.capped elapsed (sampler.floored (sampler.suppressed row)))

/-- The temperature path behind the masks is left to `draw`. -/
def sample (draw : Sampler → List Ieee → Int) (sampler : Sampler) (elapsed : Nat)
    (row : List Ieee) : Int × Sampler :=
  if row = [] then (0, sampler)
  else
    let forced := (sampler.forces elapsed (sampler.floored (sampler.suppressed row))).isSome
    let next := { sampler with thinkForced := sampler.thinkForced || forced }
    if sampler.isGreedy then (argmax (sampler.masked elapsed row), next)
    else (draw sampler (sampler.masked elapsed row), next)

/-- One token: `sample` on a fresh row and `observe` of its result. -/
def decodeOne (draw : Sampler → List Ieee → Int) (input : Nat × List Ieee) (sampler : Sampler) :
    Sampler :=
  let (token, next) := sampler.sample draw input.1 input.2
  next.observe token

end Sampler

/-! ## What a mask does to a row -/

theorem getElem?_maskId (row : List Ieee) (id : Int) (index : Nat) :
    (maskId row id)[index]? =
      if id = index then (row[index]?).map fun _ => .negInf else row[index]? := by
  unfold maskId
  by_cases natural : 0 ≤ id
  · rw [if_pos natural]
    by_cases same : id = index
    · subst same
      rw [if_pos rfl, Int.toNat_natCast]
      by_cases inside : index < row.length
      · rw [List.getElem?_set_self inside, List.getElem?_eq_getElem inside, Option.map_some]
      · rw [List.getElem?_eq_none (by rw [List.length_set]; omega),
          List.getElem?_eq_none (by omega), Option.map_none]
    · rw [if_neg same, List.getElem?_set_ne (by omega)]
  · rw [if_neg natural, if_neg (by omega)]

theorem getElem?_maskAll (ids : List Int) (row : List Ieee) (index : Nat) :
    (ids.foldl maskId row)[index]? =
      if (index : Int) ∈ ids then (row[index]?).map fun _ => .negInf else row[index]? := by
  induction ids generalizing row with
  | nil => rfl
  | cons id rest inductionHypothesis =>
      rw [List.foldl_cons, inductionHypothesis, getElem?_maskId]
      by_cases here : id = index
      · subst here
        by_cases later : (index : Int) ∈ rest
        · cases row[index]? <;> simp [later]
        · simp [later]
      · simp [here, Ne.symm here]

theorem foldl_if_maskId (chosen : Nat → Prop) [DecidablePred chosen] (id : Nat → Int)
    (indices : List Nat) (row : List Ieee) :
    indices.foldl (fun row i => if chosen i then maskId row (id i) else row) row =
      ((indices.filter fun i => decide (chosen i)).map id).foldl maskId row := by
  simp only [List.foldl_map, List.foldl_filter, decide_eq_true_eq]

/-- An id is banned exactly when appending it makes the last n-gram recur. -/
theorem getElem?_banRepeatNgram (row : List Ieee) (ngramPrefix history : List Int) {n : Nat}
    (enabled : 2 ≤ n) (index : Nat) :
    (banRepeatNgram row ngramPrefix history n)[index]? =
      if LastRecurs n (ngramPrefix ++ history ++ [(index : Int)]) then
        (row[index]?).map fun _ => .negInf
      else row[index]? := by
  obtain ⟨width, rfl⟩ : ∃ width, n = width + 1 := ⟨n - 1, by omega⟩
  rw [banRepeatNgram, if_neg (by omega)]
  generalize ngramPrefix ++ history = seq
  by_cases short : seq.length < width + 1
  · have none : ¬ LastRecurs (width + 1) (seq ++ [(index : Int)]) := by
      rintro ⟨start, inside, -⟩
      rw [List.length_append, List.length_singleton] at inside
      omega
    rw [if_neg none]
    simp only [if_pos short]
  · have suffix : window width (seq.length - width) seq = seq.drop (seq.length - width) :=
      List.take_of_length_le (by rw [List.length_drop]; omega)
    have banned : (index : Int) ∈ ((List.range (seq.length - (width + 1) + 1)).filter fun i =>
        decide (window width i seq = seq.drop (seq.length - width))).map
          (fun i => seq.getD (i + width) 0) ↔ LastRecurs (width + 1) (seq ++ [(index : Int)]) := by
      rw [lastRecurs_concat_iff, suffix, List.mem_map]
      refine exists_congr fun start => ?_
      rw [List.mem_filter, List.mem_range, decide_eq_true_eq, and_assoc, List.getD_eq_getElem?_getD]
      constructor
      · rintro ⟨inside, same, follows⟩
        have within : start + width < seq.length := by omega
        rw [List.getElem?_eq_getElem within, Option.getD_some] at follows
        exact ⟨within, same, by rw [List.getElem?_eq_getElem within, follows]⟩
      · rintro ⟨within, same, follows⟩
        exact ⟨by omega, same, by rw [follows, Option.getD_some]⟩
    simp only [if_neg short, Nat.add_sub_cancel, foldl_if_maskId, getElem?_maskAll, banned]

@[simp]
theorem length_maskId (row : List Ieee) (id : Int) : (maskId row id).length = row.length := by
  unfold maskId
  split
  · exact List.length_set
  · rfl

/-- The row behind a mask that takes these indices. -/
def Blanks (taken : Nat → Prop) (before after : List Ieee) : Prop :=
  ∀ index : Nat, (taken index → after[index]? = (before[index]?).map fun _ => .negInf) ∧
    (¬ taken index → after[index]? = before[index]?)

theorem Blanks.of_if {taken : Nat → Prop} [DecidablePred taken] {before after : List Ieee}
    (same : ∀ index : Nat, after[index]? =
      if taken index then (before[index]?).map fun _ => .negInf else before[index]?) :
    Blanks taken before after :=
  fun index => ⟨fun here => by rw [same, if_pos here], fun spared => by rw [same, if_neg spared]⟩

theorem Blanks.none (row : List Ieee) : Blanks (fun _ => False) row row :=
  fun _ => ⟨False.elim, fun _ => rfl⟩

theorem Blanks.trans {first second : Nat → Prop} {before middle after : List Ieee}
    (one : Blanks first before middle) (two : Blanks second middle after) :
    Blanks (fun index => first index ∨ second index) before after := by
  intro index
  constructor
  · intro taken
    by_cases later : second index
    · rw [(two index).1 later]
      by_cases earlier : first index
      · rw [(one index).1 earlier]
        cases before[index]? <;> rfl
      · rw [(one index).2 earlier]
    · rw [(two index).2 later]
      exact (one index).1 (taken.resolve_right later)
  · intro spared
    rw [not_or] at spared
    rw [(two index).2 spared.2, (one index).2 spared.1]

theorem Blanks.length_eq {taken : Nat → Prop} {before after : List Ieee}
    (blanks : Blanks taken before after) : after.length = before.length := by
  have same : ∀ index : Nat, after[index]?.isSome = before[index]?.isSome := by
    intro index
    by_cases here : taken index
    · rw [(blanks index).1 here, Option.isSome_map]
    · rw [(blanks index).2 here]
  refine Nat.le_antisymm (not_lt.mp fun longer => ?_) (not_lt.mp fun longer => ?_)
  · have found := same before.length
    rw [List.getElem?_eq_getElem longer, List.getElem?_eq_none le_rfl] at found
    cases found
  · have found := same after.length
    rw [List.getElem?_eq_getElem longer, List.getElem?_eq_none le_rfl] at found
    cases found

namespace Sampler

variable (sampler : Sampler)

/-- The floor takes this index. -/
def Floors (index : Nat) : Prop :=
  0 < sampler.thinkMin ∧ sampler.history.length < sampler.thinkMin ∧
    sampler.thinkClose = some (index : Int)

/-- The ceiling takes this index. -/
def Caps (elapsed : Nat) (row : List Ieee) (index : Nat) : Prop :=
  ∃ forced, sampler.forces elapsed row = some forced ∧ index ≠ forced

instance (elapsed : Nat) (row : List Ieee) (index : Nat) :
    Decidable (sampler.Caps elapsed row index) :=
  match found : sampler.forces elapsed row with
  | none => .isFalse fun ⟨_, here, _⟩ => nomatch found.symm.trans here
  | some forced => decidable_of_iff (index ≠ forced) (by simp [Caps, found])

/-- The n-gram guard takes this index. -/
def Bans (index : Nat) : Prop :=
  2 ≤ sampler.noRepeatNgram ∧
    LastRecurs sampler.noRepeatNgram (sampler.ngramPrefix ++ sampler.history ++ [(index : Int)])

/-- Some mask takes this index. -/
def Masks (elapsed : Nat) (row : List Ieee) (index : Nat) : Prop :=
  (((index : Int) ∈ sampler.suppress ∨ sampler.Floors index) ∨ sampler.Caps elapsed row index) ∨
    sampler.Bans index

instance (elapsed : Nat) (row : List Ieee) (index : Nat) :
    Decidable (sampler.Masks elapsed row index) :=
  inferInstanceAs (Decidable (((_ ∨ (_ ∧ _ ∧ _)) ∨ sampler.Caps elapsed row index) ∨ (_ ∧ _)))

theorem suppressed_blanks (row : List Ieee) :
    Blanks (fun index => (index : Int) ∈ sampler.suppress) row (sampler.suppressed row) :=
  Blanks.of_if fun index => getElem?_maskAll sampler.suppress row index

theorem floored_blanks (row : List Ieee) : Blanks sampler.Floors row (sampler.floored row) := by
  unfold floored
  by_cases early : 0 < sampler.thinkMin ∧ sampler.history.length < sampler.thinkMin
  · rw [if_pos early]
    cases close : sampler.thinkClose with
    | none =>
        exact fun index => ⟨fun floors => (nomatch close.symm.trans floors.2.2), fun _ => rfl⟩
    | some id =>
        intro index
        rw [getElem?_maskId]
        refine ⟨fun floors => if_pos (Option.some.inj (close.symm.trans floors.2.2)),
          fun spared => if_neg fun here => spared ⟨early.1, early.2, close.trans (congrArg some here)⟩⟩
  · rw [if_neg early]
    exact fun index => ⟨fun floors => absurd ⟨floors.1, floors.2.1⟩ early, fun _ => rfl⟩

theorem capped_blanks (elapsed : Nat) (row : List Ieee) :
    Blanks (sampler.Caps elapsed row) row (sampler.capped elapsed row) := by
  unfold capped
  cases forced : sampler.forces elapsed row with
  | none => exact fun index => ⟨fun ⟨_, here, _⟩ => (nomatch forced.symm.trans here), fun _ => rfl⟩
  | some place =>
      intro index
      simp only [List.getElem?_mapIdx]
      constructor
      · rintro ⟨other, here, apart⟩
        obtain rfl : place = other := Option.some.inj (forced.symm.trans here)
        simp only [if_pos apart]
      · intro spared
        have same : index = place := not_not.mp fun apart => spared ⟨place, forced, apart⟩
        simp only [same, ne_eq, not_true_eq_false, if_false, Option.map_id']

theorem banned_blanks (row : List Ieee) : Blanks sampler.Bans row (sampler.banned row) := by
  unfold banned
  by_cases enabled : 2 ≤ sampler.noRepeatNgram
  · rw [if_pos enabled]
    intro index
    rw [getElem?_banRepeatNgram row _ _ enabled]
    exact ⟨fun bans => if_pos bans.2, fun spared => if_neg fun recurs => spared ⟨enabled, recurs⟩⟩
  · rw [if_neg enabled]
    exact fun index => ⟨fun bans => absurd bans.1 enabled, fun _ => rfl⟩

variable {sampler}

theorem forces_congr {elapsed : Nat} {first second : List Ieee}
    (same : first.length = second.length) :
    sampler.forces elapsed first = sampler.forces elapsed second := by
  unfold forces
  rw [same]

variable (sampler)

theorem masked_blanks (elapsed : Nat) (row : List Ieee) :
    Blanks (sampler.Masks elapsed row) row (sampler.masked elapsed row) := by
  have early := (sampler.suppressed_blanks row).trans (sampler.floored_blanks _)
  have caps := sampler.capped_blanks elapsed (sampler.floored (sampler.suppressed row))
  have same : sampler.Caps elapsed (sampler.floored (sampler.suppressed row)) =
      sampler.Caps elapsed row := by
    unfold Caps
    rw [forces_congr early.length_eq]
  rw [same] at caps
  exact (early.trans caps).trans (sampler.banned_blanks _)

end Sampler

/-! ## The argmax of a masked row -/

/-- Finite logits, some of them masked. -/
def FiniteOrMasked (row : List Ieee) : Prop :=
  ∀ logit ∈ row, logit.isFinite = true ∨ logit = .negInf

/-- What `max_by` holds after a row. -/
structure Holds (row : List Ieee) (holder : Ieee × Nat) : Prop where
  found : row[holder.2]? = some holder.1
  finite : (∃ logit ∈ row, logit.isFinite = true) → holder.1.isFinite = true
  last : (∀ logit ∈ row, logit = .negInf) → holder.2 + 1 = row.length

theorem Holds.concat {row : List Ieee} {holder : Ieee × Nat} {logit : Ieee}
    (holds : Holds row holder) (masked : FiniteOrMasked (row ++ [logit])) :
    ∃ next, laterUnlessBelow (some holder) (logit, row.length) = some next ∧
      Holds (row ++ [logit]) next := by
  rcases holder with ⟨best, index⟩
  have bestMasked : best.isFinite = true ∨ best = .negInf :=
    masked best (List.mem_append_left _ (List.mem_of_getElem? holds.found))
  have logitMasked : logit.isFinite = true ∨ logit = .negInf := masked logit (by simp)
  have kept : index < row.length := (List.getElem?_eq_some_iff.mp holds.found).1
  by_cases below : logit.lt best = true
  · -- Only a finite holder is above anything.
    have finite : best.isFinite = true := by
      rcases bestMasked with finite | rfl
      · exact finite
      · cases logit <;> cases below
    refine ⟨(best, index), if_pos below, ?_, fun _ => finite, fun all => ?_⟩
    · rw [List.getElem?_append_left kept]
      exact holds.found
    · have lost := all best (List.mem_append_left _ (List.mem_of_getElem? holds.found))
      rw [lost] at finite
      cases finite
  · refine ⟨(logit, row.length), if_neg below, List.getElem?_concat_length, ?_, fun _ => ?_⟩
    · rintro ⟨other, member, finite⟩
      rcases logitMasked with here | rfl
      · exact here
      · rcases List.mem_append.mp member with earlier | new
        · have above : best.isFinite = true := holds.finite ⟨other, earlier, finite⟩
          rw [Ieee.eq_finite_of_isFinite above] at below
          exact absurd rfl below
        · rw [List.mem_singleton.mp new] at finite
          exact finite
    · rw [List.length_append, List.length_singleton]

theorem holds_foldl {row : List Ieee} (masked : FiniteOrMasked row) (nonempty : row ≠ []) :
    ∃ holder, row.zipIdx.foldl laterUnlessBelow none = some holder ∧ Holds row holder := by
  induction row using List.reverseRecOn with
  | nil => exact absurd rfl nonempty
  | append_singleton row logit inductionHypothesis =>
      rw [List.zipIdx_append, List.foldl_append]
      rcases row.eq_nil_or_concat with rfl | ⟨front, final, shape⟩
      · refine ⟨(logit, 0), rfl, rfl, ?_, fun _ => rfl⟩
        rintro ⟨other, member, finite⟩
        rw [List.mem_singleton.mp member] at finite
        exact finite
      · have earlier : row ≠ [] := by simp [shape]
        obtain ⟨holder, folded, holds⟩ := inductionHypothesis
          (fun logit member => masked logit (List.mem_append_left _ member)) earlier
        rw [folded]
        simpa using holds.concat masked

/-- An unmasked logit makes the argmax one. -/
theorem argmax_unmasked {row : List Ieee} (masked : FiniteOrMasked row)
    (unmasked : ∃ logit ∈ row, logit.isFinite = true) :
    ∃ (index : Nat) (logit : Ieee), row[index]? = some logit ∧ logit.isFinite = true ∧
      argmax row = Int.bmod index (2 ^ 32) := by
  have nonempty : row ≠ [] := by
    rintro rfl
    obtain ⟨_, member, _⟩ := unmasked
    cases member
  obtain ⟨⟨best, index⟩, folded, holds⟩ := holds_foldl masked nonempty
  exact ⟨index, best, holds.found, holds.finite unmasked, by rw [argmax, folded]⟩

/-- A last logit above all others is the argmax. -/
theorem argmax_concat {row : List Ieee} {logit : Ieee} (masked : FiniteOrMasked row)
    (above : ∀ other ∈ row, logit.lt other = false) :
    argmax (row ++ [logit]) = Int.bmod row.length (2 ^ 32) := by
  rw [argmax, List.zipIdx_append, List.foldl_append]
  by_cases empty : row = []
  · subst empty
    rfl
  · obtain ⟨⟨best, index⟩, folded, holds⟩ := holds_foldl masked empty
    have lower : ¬ logit.lt best = true := by
      rw [above best (List.mem_of_getElem? holds.found)]
      decide
    rw [folded]
    simp only [List.zipIdx_singleton, List.foldl_cons, List.foldl_nil, laterUnlessBelow,
      if_neg lower, Nat.zero_add]

/-- `max_by` returns the last of equal maxima. -/
theorem argmax_allMasked {row : List Ieee} (nonempty : row ≠ [])
    (all : ∀ logit ∈ row, logit = .negInf) :
    argmax row = Int.bmod (row.length - 1 : Nat) (2 ^ 32) := by
  obtain ⟨⟨best, index⟩, folded, holds⟩ :=
    holds_foldl (fun logit member => Or.inr (all logit member)) nonempty
  have last : index = row.length - 1 := Nat.eq_sub_of_add_eq (holds.last all)
  rw [argmax, folded, last]

theorem Blanks.finiteOrMasked {taken : Nat → Prop} {before after : List Ieee}
    (blanks : Blanks taken before after) (finite : ∀ logit ∈ before, logit.isFinite = true) :
    FiniteOrMasked after := by
  intro logit member
  obtain ⟨index, found⟩ := List.mem_iff_getElem?.mp member
  by_cases here : taken index
  · rw [(blanks index).1 here] at found
    obtain ⟨-, -, rfl⟩ := Option.map_eq_some_iff.mp found
    exact Or.inr rfl
  · rw [(blanks index).2 here] at found
    exact Or.inl (finite logit (List.mem_of_getElem? found))

theorem Blanks.not_taken {taken : Nat → Prop} {before after : List Ieee}
    (blanks : Blanks taken before after) {index : Nat} {logit : Ieee}
    (found : after[index]? = some logit) (finite : logit.isFinite = true) : ¬ taken index := by
  intro here
  rw [(blanks index).1 here] at found
  obtain ⟨-, -, rfl⟩ := Option.map_eq_some_iff.mp found
  cases finite

theorem Blanks.unmasked {taken : Nat → Prop} {before after : List Ieee}
    (blanks : Blanks taken before after) (finite : ∀ logit ∈ before, logit.isFinite = true)
    {index : Nat} (inside : index < before.length) (spared : ¬ taken index) :
    ∃ logit ∈ after, logit.isFinite = true := by
  have found : after[index]? = some before[index] := by
    rw [(blanks index).2 spared, List.getElem?_eq_getElem inside]
  exact ⟨before[index], List.mem_of_getElem? found, finite _ (List.getElem_mem inside)⟩

/-! ## Steps of a greedy sampler -/

namespace Sampler

section Greedy

variable {draw : Sampler → List Ieee → Int} {sampler : Sampler} {elapsed : Nat} {row : List Ieee}

theorem sample_greedy (greedy : sampler.isGreedy = true) (nonempty : row ≠ []) :
    (sampler.sample draw elapsed row).1 = argmax (sampler.masked elapsed row) := by
  rw [sample, if_neg nonempty]
  simp only [greedy, if_true]

/-- The token of a greedy step is an index that no mask takes. -/
theorem sample_unmasked (greedy : sampler.isGreedy = true)
    (finite : ∀ logit ∈ row, logit.isFinite = true) {place : Nat} (inside : place < row.length)
    (spared : ¬ sampler.Masks elapsed row place) :
    ∃ index < row.length, ¬ sampler.Masks elapsed row index ∧
      (sampler.sample draw elapsed row).1 = Int.bmod index (2 ^ 32) := by
  have blanks := sampler.masked_blanks elapsed row
  obtain ⟨index, logit, found, finite', chosen⟩ :=
    argmax_unmasked (blanks.finiteOrMasked finite) (blanks.unmasked finite inside spared)
  have nonempty : row ≠ [] := by
    rintro rfl
    cases inside
  refine ⟨index, ?_, blanks.not_taken found finite', (sample_greedy greedy nonempty).trans chosen⟩
  rw [← blanks.length_eq]
  exact (List.getElem?_eq_some_iff.mp found).1

/-- What `sample` and `observe` leave alone, and the token that they append. -/
theorem decodeOne_eq (input : Nat × List Ieee) :
    ∃ forced, sampler.decodeOne draw input = { sampler with
      thinkForced := forced
      thinkClosed := sampler.thinkClosed ||
        decide (sampler.thinkClose = some (sampler.sample draw input.1 input.2).1)
      history := sampler.history ++ [(sampler.sample draw input.1 input.2).1] } := by
  unfold decodeOne sample
  by_cases empty : input.2 = []
  · simp only [if_pos empty]
    exact ⟨sampler.thinkForced, rfl⟩
  · simp only [if_neg empty]
    cases sampler.isGreedy with
    | true => exact ⟨_, rfl⟩
    | false => exact ⟨_, rfl⟩

end Greedy

/-! ## No repeated n-gram -/

/-- Finite logits, one for each id, of which some id is unmasked. -/
structure Decodable (input : Nat × List Ieee) (sampler : Sampler) : Prop where
  finite : ∀ logit ∈ input.2, logit.isFinite = true
  unmasked : ∃ index < input.2.length, ¬ sampler.Masks input.1 input.2 index
  short : input.2.length ≤ 2 ^ 31

instance (input : Nat × List Ieee) (sampler : Sampler) : Decidable (Decodable input sampler) :=
  decidable_of_iff ((∀ logit ∈ input.2, logit.isFinite = true) ∧
      (∃ index < input.2.length, ¬ sampler.Masks input.1 input.2 index) ∧
        input.2.length ≤ 2 ^ 31)
    ⟨fun ⟨finite, unmasked, short⟩ => ⟨finite, unmasked, short⟩,
      fun ⟨finite, unmasked, short⟩ => ⟨finite, unmasked, short⟩⟩

/-- A greedy sampler with this guard whose tokens repeat no n-gram. -/
structure Guards (n : Nat) (ngramPrefix : List Int) (sampler : Sampler) : Prop where
  order : sampler.noRepeatNgram = n
  start : sampler.ngramPrefix = ngramPrefix
  greedy : sampler.isGreedy = true
  free : NoneRecursBehind n ngramPrefix.length (ngramPrefix ++ sampler.history)

theorem Guards.decodeOne {draw : Sampler → List Ieee → Int} {n : Nat} {ngramPrefix : List Int}
    (enabled : 2 ≤ n) (input : Nat × List Ieee) (sampler : Sampler)
    (decodable : Decodable input sampler) (guards : Guards n ngramPrefix sampler) :
    Guards n ngramPrefix (sampler.decodeOne draw input) := by
  obtain ⟨place, inside, spared⟩ := decodable.unmasked
  obtain ⟨index, within, unmasked, token⟩ :=
    @sample_unmasked draw _ _ _ guards.greedy decodable.finite _ inside spared
  have small : Int.bmod index (2 ^ 32) = index := by
    have bound := decodable.short
    exact Int.bmod_eq_of_le (by omega) (by omega)
  obtain ⟨forced, next⟩ := @decodeOne_eq draw sampler input
  rw [next, token, small]
  refine ⟨guards.order, guards.start, guards.greedy, ?_⟩
  have fresh : ¬ LastRecurs n (ngramPrefix ++ sampler.history ++ [(index : Int)]) := by
    intro recurs
    refine unmasked (Or.inr ⟨guards.order ▸ enabled, ?_⟩)
    rw [guards.order, guards.start]
    exact recurs
  simpa only [List.append_assoc] using guards.free.concat fresh

end Sampler

/-- No n-gram that ends in a generated token occurs earlier, and the guard bans exactly the ids
that would end such an n-gram. -/
theorem greedy_noRepeat {draw : Sampler → List Ieee → Int} {sampler : Sampler}
    (enabled : 2 ≤ sampler.noRepeatNgram) (greedy : sampler.isGreedy = true)
    (fresh : sampler.history = []) (inputs : List (Nat × List Ieee))
    (decodable : GuardedRun (Sampler.decodeOne draw) Sampler.Decodable inputs sampler) :
    NoneRecursBehind sampler.noRepeatNgram sampler.ngramPrefix.length
        (sampler.ngramPrefix ++ (serveAll (Sampler.decodeOne draw) inputs sampler).history) ∧
      ∀ (row : List Ieee) (ngramPrefix history : List Int) (n index : Nat), 2 ≤ n →
        (banRepeatNgram row ngramPrefix history n)[index]? =
          if LastRecurs n (ngramPrefix ++ history ++ [(index : Int)]) then
            (row[index]?).map fun _ => .negInf
          else row[index]? := by
  have start : Sampler.Guards sampler.noRepeatNgram sampler.ngramPrefix sampler := by
    refine ⟨rfl, rfl, greedy, ?_⟩
    rw [fresh, List.append_nil]
    intro _ stop behind inside
    omega
  refine ⟨(decodable.preserves (Sampler.Guards.decodeOne enabled) start).free, ?_⟩
  intro row ngramPrefix history n index enabled'
  exact getElem?_banRepeatNgram row ngramPrefix history enabled' index

/-- More logits than there are non-negative ids; the last one is the largest. -/
def longRow : List Ieee := List.replicate (2 ^ 31) (.finite 0) ++ [.finite 1]

theorem longRow_finite : ∀ logit ∈ longRow, logit.isFinite = true := by
  intro logit member
  rcases List.mem_append.mp member with zero | one
  · rw [List.eq_of_mem_replicate zero]
    rfl
  · rw [List.mem_singleton.mp one]
    rfl

theorem argmax_longRow : argmax longRow = -2 ^ 31 := by
  have masked : FiniteOrMasked (List.replicate (2 ^ 31) (.finite 0)) := by
    intro logit member
    rw [List.eq_of_mem_replicate member]
    exact Or.inl rfl
  have above : ∀ other ∈ List.replicate (2 ^ 31) (Ieee.finite 0),
      (Ieee.finite 1).lt other = false := by
    intro other member
    rw [List.eq_of_mem_replicate member]
    decide
  rw [longRow, argmax_concat masked above, List.length_replicate]
  decide

/-- The sampler behind `count` tokens of the longest row. -/
def behindLongRows (count : Nat) : Sampler :=
  { withSuppress (.finite 0) 2 [] with history := List.replicate count (-2 ^ 31) }

theorem behindLongRows_unmasked (count index : Nat) :
    ¬ (behindLongRows count).Masks 0 longRow index := by
  rintro (((suppressed | floors) | ⟨forced, forces, -⟩) | ⟨-, bans⟩)
  · cases suppressed
  · exact Nat.lt_irrefl 0 floors.1
  · cases forces
  · obtain ⟨start, -, -, follows⟩ := lastRecurs_concat_iff.mp bans
    have token := List.eq_of_mem_replicate (List.mem_of_getElem? follows)
    omega

theorem decodeOne_longRow (count : Nat) :
    (behindLongRows count).decodeOne (fun _ _ => 0) (0, longRow) = behindLongRows (count + 1) := by
  have same : (behindLongRows count).masked 0 longRow = longRow :=
    List.ext_getElem? fun index =>
      ((behindLongRows count).masked_blanks 0 longRow index).2 (behindLongRows_unmasked count index)
  have nonempty : longRow ≠ [] := List.append_ne_nil_of_right_ne_nil _ (List.cons_ne_nil _ _)
  have greedy : (behindLongRows count).isGreedy = true := by
    change (Ieee.finite 0).le (.finite 0) = true
    decide
  have token : ((behindLongRows count).sample (fun _ _ => 0) 0 longRow) =
      (-2 ^ 31, behindLongRows count) := by
    rw [Sampler.sample, if_neg nonempty]
    simp only [greedy, if_true, same, argmax_longRow]
    rfl
  rw [Sampler.decodeOne, token]
  simp only [Sampler.observe, behindLongRows, List.replicate_succ']
  rfl

theorem greedy_repeats_longRow :
    GuardedRun (Sampler.decodeOne fun _ _ => 0)
        (fun input sampler => (∀ logit ∈ input.2, logit.isFinite = true) ∧
          ∃ index < input.2.length, ¬ sampler.Masks input.1 input.2 index)
        [(0, longRow), (0, longRow), (0, longRow)] (withSuppress (.finite 0) 2 []) ∧
      ¬ NoneRecursBehind 2 0 (serveAll (Sampler.decodeOne fun _ _ => 0)
        [(0, longRow), (0, longRow), (0, longRow)] (withSuppress (.finite 0) 2 [])).history := by
  have unmasked : ∀ count, (∀ logit ∈ longRow, logit.isFinite = true) ∧
      ∃ index < longRow.length, ¬ (behindLongRows count).Masks 0 longRow index := by
    intro count
    refine ⟨longRow_finite, 0, ?_, behindLongRows_unmasked count 0⟩
    rw [longRow, List.length_append]
    exact Nat.add_pos_right _ Nat.one_pos
  have fresh : withSuppress (.finite 0) 2 [] = behindLongRows 0 := rfl
  rw [fresh]
  constructor
  · refine ⟨unmasked 0, ?_⟩
    rw [decodeOne_longRow]
    refine ⟨unmasked 1, ?_⟩
    rw [decodeOne_longRow]
    exact ⟨unmasked 2, trivial⟩
  · simp only [serveAll, decodeOne_longRow]
    intro free
    exact free 0 3 (by decide) (by decide) (by decide) rfl

theorem greedy_noRepeat_prompt :
    NoneRecursBehind 2 2 ([1, 0] ++ (serveAll (Sampler.decodeOne fun _ _ => 0)
        [(0, [.finite 1, .finite 0, .finite 0]), (0, [.finite 1, .finite 3, .finite 2])]
        ((withSuppress (.finite 0) 2 []).setNgramPrefix [1, 0])).history) ∧
      ∀ (row : List Ieee) (ngramPrefix history : List Int) (n index : Nat), 2 ≤ n →
        (banRepeatNgram row ngramPrefix history n)[index]? =
          if LastRecurs n (ngramPrefix ++ history ++ [(index : Int)]) then
            (row[index]?).map fun _ => .negInf
          else row[index]? :=
  @greedy_noRepeat (fun _ _ => 0) ((withSuppress (.finite 0) 2 []).setNgramPrefix [1, 0])
    (by decide) (rfl) rfl _ (by decide)

end KairosEngine.Daemon
