import Mathlib.Data.List.Nodup
import KairosEngine.Library.IeeeNumber
import KairosEngine.Library.Loop
import KairosEngine.Library.MinHeap

/-!
# The best positions of a score row

`sp_oracle_top_b` keeps the best `B` positions in a heap with the worst of them at the root, and
`k_topb_dev` runs the same loops on the row of a head.  The arrays `hs` and `hi` are one list of
slots, since every access is to one index of both, and it ends at the slots the heap may use: an
access behind them has no result.  Indices are natural numbers, as long as the `int`s of the
source hold them.
-/

namespace KairosEngine.Cuda

open KairosEngine.Library

/-- An entry of `hs` and the entry of `hi` at its index. -/
structure TopSlot where
  hs : Ieee
  hi : Nat

/-! ## The loops -/

def swapSlots (slots : List TopSlot) (first second : Nat) : Option (List TopSlot) :=
  match slots[first]?, slots[second]? with
  | some atFirst, some atSecond => some ((slots.set first atSecond).set second atFirst)
  | _, _ => none

def storeSlot (slots : List TopSlot) (index : Nat) (slot : TopSlot) : Option (List TopSlot) :=
  if index < slots.length then some (slots.set index slot) else none

/-- The loop that moves a new entry up. -/
def moveUp (slots : List TopSlot) (i : Nat) : Option (List TopSlot) :=
  if 0 < i then
    match slots[(i - 1) / 2]?, slots[i]? with
    | some above, some here =>
        if above.hs.le here.hs then some slots
        else
          match swapSlots slots ((i - 1) / 2) i with
          | some swapped => moveUp swapped ((i - 1) / 2)
          | none => none
    | _, _ => none
  else some slots
termination_by i

/-- One of the two comparisons with a child. -/
def pickChild (slots : List TopSlot) (n sm child : Nat) : Option Nat :=
  if child < n then
    match slots[child]?, slots[sm]? with
    | some below, some holder => some (if below.hs.lt holder.hs then child else sm)
    | _, _ => none
  else some sm

def pickLeast (slots : List TopSlot) (n i : Nat) : Option Nat :=
  (pickChild slots n i (2 * i + 1)).bind fun sm => pickChild slots n sm (2 * i + 2)

theorem pickChild_cases {slots : List TopSlot} {n sm child picked : Nat}
    (found : pickChild slots n sm child = some picked) :
    picked = sm ∨ picked = child ∧ child < n := by
  unfold pickChild at found
  split at found
  next inside =>
    split at found
    next =>
      rw [Option.some.injEq] at found
      subst found
      split
      next => exact Or.inr ⟨rfl, inside⟩
      next => exact Or.inl rfl
    next => cases found
  next =>
    cases found
    exact Or.inl rfl

theorem pickLeast_cases {slots : List TopSlot} {n i picked : Nat}
    (found : pickLeast slots n i = some picked) : picked = i ∨ i < picked ∧ picked < n := by
  obtain ⟨first, left, right⟩ := Option.bind_eq_some_iff.mp found
  have leftCases := pickChild_cases left
  have rightCases := pickChild_cases right
  omega

/-- The loop that moves the entry at `i` down. -/
def moveDown (slots : List TopSlot) (n i : Nat) : Option (List TopSlot) :=
  match _found : pickLeast slots n i with
  | none => none
  | some sm =>
      if sm = i then some slots
      else
        match swapSlots slots sm i with
        | some swapped => moveDown swapped n sm
        | none => none
termination_by n - i
decreasing_by
  have deeper := pickLeast_cases _found
  omega

theorem moveDown_picked {slots : List TopSlot} {n i sm : Nat}
    (picked : pickLeast slots n i = some sm) :
    moveDown slots n i =
      if sm = i then some slots
      else (swapSlots slots sm i).bind fun swapped => moveDown swapped n sm := by
  rw [moveDown]
  split
  next none =>
    rw [picked] at none
    cases none
  next found =>
    rw [picked, Option.some.injEq] at found
    subst found
    split
    next => rfl
    next =>
      split
      next swapped swap => rw [swap, Option.bind_some]
      next swap => rw [swap, Option.bind_none]

structure TopState where
  slots : List TopSlot
  n : Nat

/-- What the loop does at position `p`; `m` is the smaller of `B` and `ctx`. -/
def topStep (sc : Nat → Ieee) (m p : Nat) (state : TopState) : Option TopState :=
  if state.n < m then do
    let slots ← storeSlot state.slots state.n ⟨sc p, p⟩
    let slots ← moveUp slots state.n
    return { slots, n := state.n + 1 }
  else do
    let root ← state.slots[0]?
    if root.hs.lt (sc p) then
      let slots ← storeSlot state.slots 0 ⟨sc p, p⟩
      let slots ← moveDown slots state.n 0
      return { slots, n := state.n }
    else
      return state

/-- The loop over the positions; `junk` is what the two arrays hold before it. -/
def topLoop (sc : Nat → Ieee) (ctx B : Nat) (junk : Nat → TopSlot) : Option TopState :=
  runEach (topStep sc (min B ctx)) (List.range ctx) ⟨(List.range (min B ctx)).map junk, 0⟩

/-- The loop that copies the positions out, into a buffer from index `start` on. -/
def copyChosen (state : TopState) (start : Nat) (out : Nat → Nat) : Option (Nat → Nat) :=
  runEach (fun j out => (state.slots[j]?).map fun slot => Function.update out (start + j) slot.hi)
    (List.range state.n) out

/-- `sp_oracle_top_b`: the buffer `out` and the result. -/
def spOracleTopB (sc : Nat → Ieee) (ctx B : Nat) (junk : Nat → TopSlot) (out : Nat → Nat) :
    Option ((Nat → Nat) × Nat) := do
  let state ← topLoop sc ctx B junk
  let out ← copyChosen state 0 out
  return (out, state.n)

/-- One thread of `k_topb_dev`: the buffers `ri` and `m_out`. -/
def kTopbDev (scores : Nat → Ieee) (ctx Pstr B : Nat) (junk : Nat → TopSlot) (h thread : Nat)
    (ri mOut : Nat → Nat) : Option ((Nat → Nat) × (Nat → Nat)) :=
  if thread ≠ 0 then some (ri, mOut)
  else do
    let state ← topLoop (fun p => scores (h * Pstr + p)) ctx B junk
    let ri ← copyChosen state (h * Pstr) ri
    return (ri, Function.update mOut h state.n)

/-! ## The loops are those of a heap -/

/-- The heap order of the slots. -/
def TopSlot.key (slot : TopSlot) : Ieee.Number := Ieee.Number.of slot.hs

theorem hsLt_iff {first second : TopSlot} (firstNumber : first.hs.isNan = false)
    (secondNumber : second.hs.isNan = false) :
    first.hs.lt second.hs = true ↔ first.key < second.key := by
  rw [Ieee.Number.lt_iff, TopSlot.key, TopSlot.key, Ieee.Number.val_of firstNumber,
    Ieee.Number.val_of secondNumber]

theorem hsLe_iff {first second : TopSlot} (firstNumber : first.hs.isNan = false)
    (secondNumber : second.hs.isNan = false) :
    first.hs.le second.hs = true ↔ first.key ≤ second.key := by
  rw [Ieee.Number.le_iff, TopSlot.key, TopSlot.key, Ieee.Number.val_of firstNumber,
    Ieee.Number.val_of secondNumber]

/-- The first `n` slots hold these entries, none of them a NaN. -/
structure Filled (slots : List TopSlot) (n : Nat) (entries : Nat → TopSlot) : Prop where
  holds : ∀ index < n, slots[index]? = some (entries index)
  number : ∀ index < n, (entries index).hs.isNan = false

variable {slots : List TopSlot} {n : Nat} {entries : Nat → TopSlot}

theorem storeSlot_filled (filled : Filled slots n entries) {index : Nat} {slot : TopSlot}
    (inside : index < slots.length) (number : slot.hs.isNan = false)
    {size : Nat} (covered : ∀ other < size, other < n ∨ other = index) :
    ∃ stored, storeSlot slots index slot = some stored ∧ stored.length = slots.length ∧
      Filled stored size fun other => if other = index then slot else entries other := by
  refine ⟨slots.set index slot, if_pos inside, List.length_set, ?_, ?_⟩
  · intro other below
    by_cases here : other = index
    · rw [here, if_pos rfl, List.getElem?_set_self inside]
    · rw [if_neg here, List.getElem?_set_ne (Ne.symm here)]
      exact filled.holds other ((covered other below).resolve_right here)
  · intro other below
    by_cases here : other = index
    · rw [if_pos here]
      exact number
    · rw [if_neg here]
      exact filled.number other ((covered other below).resolve_right here)

theorem swapSlots_filled (filled : Filled slots n entries) {first second : Nat}
    (firstInside : first < n) (secondInside : second < n) :
    ∃ swapped, swapSlots slots first second = some swapped ∧ swapped.length = slots.length ∧
      Filled swapped n (MinHeap.swap entries second first) := by
  have atFirst := filled.holds first firstInside
  have atSecond := filled.holds second secondInside
  have firstBelow := (List.getElem?_eq_some_iff.mp atFirst).1
  have secondBelow := (List.getElem?_eq_some_iff.mp atSecond).1
  refine ⟨(slots.set first (entries second)).set second (entries first), ?_, ?_, ?_, ?_⟩
  · simp only [swapSlots, atFirst, atSecond]
  · rw [List.length_set, List.length_set]
  · intro index below
    by_cases onSecond : index = second
    · rw [onSecond, MinHeap.swap_left,
        List.getElem?_set_self (by rw [List.length_set]; exact secondBelow)]
    · rw [List.getElem?_set_ne (Ne.symm onSecond)]
      by_cases onFirst : index = first
      · rw [onFirst, MinHeap.swap_right, List.getElem?_set_self firstBelow]
      · rw [MinHeap.swap_other _ onSecond onFirst, List.getElem?_set_ne (Ne.symm onFirst)]
        exact filled.holds index below
  · intro index below
    by_cases onSecond : index = second
    · rw [onSecond, MinHeap.swap_left]
      exact filled.number first firstInside
    · by_cases onFirst : index = first
      · rw [onFirst, MinHeap.swap_right]
        exact filled.number second secondInside
      · rw [MinHeap.swap_other _ onSecond onFirst]
        exact filled.number index below

/-- The loop up is the sift of the heap. -/
theorem moveUp_filled (filled : Filled slots n entries) {i : Nat} (inside : i < n) :
    ∃ moved, moveUp slots i = some moved ∧ moved.length = slots.length ∧
      Filled moved n (MinHeap.siftUp TopSlot.key entries i) := by
  induction entries, i using MinHeap.siftUp.induct TopSlot.key generalizing slots with
  | case1 entries i moves inductionHypothesis =>
      have above : MinHeap.parent i < n := (MinHeap.parent_lt moves.1).trans inside
      have parentNumber := filled.number _ above
      have stays : ¬ (entries (MinHeap.parent i)).hs.le (entries i).hs = true := by
        rw [hsLe_iff parentNumber (filled.number i inside)]
        exact not_le.mpr moves.2
      obtain ⟨swapped, swap, sameLength, swappedFilled⟩ := swapSlots_filled filled above inside
      obtain ⟨moved, run, movedLength, movedFilled⟩ := inductionHypothesis swappedFilled above
      refine ⟨moved, ?_, movedLength.trans sameLength, ?_⟩
      · have atParent := filled.holds _ above
        rw [MinHeap.parent] at atParent swap run stays
        rw [moveUp, if_pos moves.1]
        simp only [atParent, filled.holds i inside, if_neg stays, swap]
        exact run
      · rw [MinHeap.siftUp, if_pos moves]
        exact movedFilled
  | case2 entries i stays =>
      refine ⟨slots, ?_, rfl, ?_⟩
      · rw [moveUp]
        by_cases positive : 0 < i
        · have above : MinHeap.parent i < n := (MinHeap.parent_lt positive).trans inside
          have atParent := filled.holds _ above
          have ordered : (entries (MinHeap.parent i)).hs.le (entries i).hs = true := by
            rw [hsLe_iff (filled.number _ above) (filled.number i inside)]
            exact not_lt.mp fun smaller => stays ⟨positive, smaller⟩
          rw [MinHeap.parent] at atParent ordered
          rw [if_pos positive]
          simp only [atParent, filled.holds i inside, if_pos ordered]
        · rw [if_neg positive]
      · rw [MinHeap.siftUp, if_neg stays]
        exact filled

theorem pickChild_filled (filled : Filled slots n entries) {sm child : Nat} (inside : sm < n) :
    pickChild slots n sm child = some (MinHeap.better TopSlot.key entries n sm child) := by
  unfold pickChild MinHeap.better
  by_cases below : child < n
  · rw [if_pos below]
    simp only [filled.holds child below, filled.holds sm inside,
      hsLt_iff (filled.number child below) (filled.number sm inside), below, true_and]
  · rw [if_neg below, if_neg fun wins => below wins.1]

theorem pickLeast_filled (filled : Filled slots n entries) {i : Nat} (inside : i < n) :
    pickLeast slots n i = some (MinHeap.least TopSlot.key entries n i) := by
  rw [pickLeast, pickChild_filled filled inside, Option.bind_some, pickChild_filled filled]
  · rfl
  · rcases MinHeap.better_cases TopSlot.key entries n i (2 * i + 1) with same | ⟨same, below⟩
    · rw [same]
      exact inside
    · rw [same]
      exact below

/-- The loop down is the sift of the heap. -/
theorem moveDown_filled (filled : Filled slots n entries) {i : Nat} (inside : i < n) :
    ∃ moved, moveDown slots n i = some moved ∧ moved.length = slots.length ∧
      Filled moved n (MinHeap.siftDown TopSlot.key entries n i) := by
  induction entries, i using MinHeap.siftDown.induct TopSlot.key n generalizing slots with
  | case1 entries i stays =>
      refine ⟨slots, ?_, rfl, ?_⟩
      · rw [moveDown_picked (pickLeast_filled filled inside), if_pos stays]
      · rw [MinHeap.siftDown, if_pos stays]
        exact filled
  | case2 entries i moves inductionHypothesis =>
      have below := ((MinHeap.least_cases TopSlot.key entries n i).resolve_left moves).2.1
      obtain ⟨swapped, swap, sameLength, swappedFilled⟩ := swapSlots_filled filled below inside
      obtain ⟨moved, run, movedLength, movedFilled⟩ := inductionHypothesis swappedFilled below
      refine ⟨moved, ?_, movedLength.trans sameLength, ?_⟩
      · rw [moveDown_picked (pickLeast_filled filled inside), if_neg moves, swap, Option.bind_some]
        exact run
      · rw [MinHeap.siftDown, if_neg moves]
        exact movedFilled

/-! ## The best so far -/

/-- A position with its score. -/
def slotAt (sc : Nat → Ieee) (p : Nat) : TopSlot := ⟨sc p, p⟩

/-- A heap with another entry at the root. -/
def replaceRoot (heap : MinHeap TopSlot) (slot : TopSlot) : MinHeap TopSlot where
  entries := MinHeap.siftDown TopSlot.key
    (fun index => if index = 0 then slot else heap.entries index) heap.size 0
  size := heap.size

/-- The heap after the first positions. -/
def bestSoFar (sc : Nat → Ieee) (m : Nat) : Nat → MinHeap TopSlot
  | 0 => ⟨fun _ => ⟨.nan, 0⟩, 0⟩
  | p + 1 =>
      let heap := bestSoFar sc m p
      if heap.size < m then heap.push TopSlot.key (slotAt sc p)
      else if (heap.entries 0).key < (slotAt sc p).key then replaceRoot heap (slotAt sc p)
      else heap

/-- Rows with the same scores have the same heap. -/
theorem bestSoFar_congr {sc other : Nat → Ieee} {m : Nat} :
    ∀ {ctx : Nat}, (∀ p < ctx, other p = sc p) → bestSoFar other m ctx = bestSoFar sc m ctx
  | 0, _ => rfl
  | ctx + 1, same => by
    have before := @bestSoFar_congr sc other m ctx fun p below => same p (Nat.lt_succ_of_lt below)
    have here : slotAt other ctx = slotAt sc ctx := by
      rw [slotAt, slotAt, same ctx (Nat.lt_succ_self ctx)]
    rw [bestSoFar, bestSoFar, before, here]

theorem bestSoFar_size (sc : Nat → Ieee) (m : Nat) : ∀ p, (bestSoFar sc m p).size = min m p
  | 0 => (Nat.min_zero m).symm
  | p + 1 => by
    have before := bestSoFar_size sc m p
    rw [bestSoFar]
    by_cases few : (bestSoFar sc m p).size < m
    · rw [if_pos few]
      change (bestSoFar sc m p).size + 1 = _
      omega
    · rw [if_neg few]
      have full : (bestSoFar sc m p).size = min m (p + 1) := by omega
      split
      next => exact full
      next => exact full

/-- What the heap holds of the positions below `p`. -/
structure Selects (sc : Nat → Ieee) (p : Nat) (heap : MinHeap TopSlot) : Prop where
  ordered : MinHeap.Ordered TopSlot.key heap.entries heap.size
  own : ∀ slot, heap.Holds slot → slot.hi < p ∧ slot = slotAt sc slot.hi
  distinct : ∀ first < heap.size, ∀ second < heap.size,
    (heap.entries first).hi = (heap.entries second).hi → first = second
  best : ∀ q < p, heap.Holds (slotAt sc q) ∨
    ∀ slot, heap.Holds slot → (slotAt sc q).key ≤ slot.key

variable {sc : Nat → Ieee} {m p : Nat} {heap : MinHeap TopSlot}

/-- An entry held after a step is the new position or was held before. -/
theorem Selects.own_succ (selects : Selects sc p heap) {slot : TopSlot}
    (held : slot = slotAt sc p ∨ heap.Holds slot) :
    slot.hi < p + 1 ∧ slot = slotAt sc slot.hi := by
  rcases held with rfl | before
  · exact ⟨Nat.lt_succ_self p, rfl⟩
  · obtain ⟨below, same⟩ := selects.own slot before
    exact ⟨Nat.lt_succ_of_lt below, same⟩

theorem Selects.hi_ne (selects : Selects sc p heap) {index : Nat} (below : index < heap.size) :
    (heap.entries index).hi ≠ p :=
  Nat.ne_of_lt (selects.own _ ⟨index, below, rfl⟩).1

/-- The new position is at the index it is stored at only. -/
theorem Selects.stored_distinct (selects : Selects sc p heap) {place size : Nat}
    (covered : ∀ index < size, index < heap.size ∨ index = place) :
    ∀ first < size, ∀ second < size,
      (if first = place then slotAt sc p else heap.entries first).hi =
        (if second = place then slotAt sc p else heap.entries second).hi → first = second := by
  have old : ∀ index < size, index ≠ place → index < heap.size := fun index below other =>
    (covered index below).resolve_right other
  intro first firstBelow second secondBelow same
  by_cases firstPlace : first = place <;> by_cases secondPlace : second = place
  · rw [firstPlace, secondPlace]
  · rw [if_pos firstPlace, if_neg secondPlace] at same
    exact absurd same.symm (selects.hi_ne (old second secondBelow secondPlace))
  · rw [if_neg firstPlace, if_pos secondPlace] at same
    exact absurd same (selects.hi_ne (old first firstBelow firstPlace))
  · rw [if_neg firstPlace, if_neg secondPlace] at same
    exact selects.distinct first (old first firstBelow firstPlace) second
      (old second secondBelow secondPlace) same

theorem Selects.push (selects : Selects sc p heap)
    (complete : ∀ q < p, heap.Holds (slotAt sc q)) :
    Selects sc (p + 1) (heap.push TopSlot.key (slotAt sc p)) where
  ordered := MinHeap.push_ordered selects.ordered
  own := by
    intro slot held
    exact selects.own_succ (MinHeap.push_holds.mp held)
  distinct := by
    apply (MinHeap.siftUp_permutes (Nat.lt_succ_self heap.size)).injOn
    exact selects.stored_distinct fun index below => Nat.lt_succ_iff_lt_or_eq.mp below
  best := by
    intro q below
    left
    rw [MinHeap.push_holds]
    rcases Nat.lt_succ_iff_lt_or_eq.mp below with before | rfl
    · exact Or.inr (complete q before)
    · exact Or.inl rfl

theorem replaceRoot_holds (nonempty : 0 < heap.size) {pushed slot : TopSlot} :
    (replaceRoot heap pushed).Holds slot ↔
      slot = pushed ∨ ∃ index < heap.size, 0 < index ∧ heap.entries index = slot := by
  have sifted : (replaceRoot heap pushed).Holds slot ↔
      ∃ index < heap.size, (if index = 0 then pushed else heap.entries index) = slot :=
    MinHeap.siftDown_holds nonempty slot
  rw [sifted]
  constructor
  · rintro ⟨index, below, found⟩
    by_cases root : index = 0
    · rw [if_pos root] at found
      exact Or.inl found.symm
    · rw [if_neg root] at found
      exact Or.inr ⟨index, below, Nat.pos_of_ne_zero root, found⟩
  · rintro (rfl | ⟨index, below, positive, found⟩)
    · exact ⟨0, nonempty, if_pos rfl⟩
    · exact ⟨index, below, by rw [if_neg positive.ne']; exact found⟩

theorem Selects.replace (selects : Selects sc p heap) (nonempty : 0 < heap.size)
    (larger : (heap.entries 0).key < (slotAt sc p).key) :
    Selects sc (p + 1) (replaceRoot heap (slotAt sc p)) where
  ordered := by
    apply MinHeap.siftDown_ordered
    constructor
    · intro index positive below other
      rw [if_neg other, if_neg positive.ne']
      exact selects.ordered index positive below
    · intro positive
      exact absurd positive (Nat.lt_irrefl 0)
  own := by
    intro slot held
    apply selects.own_succ
    rcases (replaceRoot_holds nonempty).mp held with new | ⟨index, below, _, found⟩
    · exact Or.inl new
    · exact Or.inr ⟨index, below, found⟩
  distinct := by
    apply (MinHeap.siftDown_permutes nonempty).injOn
    exact selects.stored_distinct fun index below => Or.inl below
  best := by
    -- what was not held, and the old root, is not above the old root
    have least : ∀ q, (slotAt sc q).key ≤ (heap.entries 0).key →
        ∀ slot, (replaceRoot heap (slotAt sc p)).Holds slot → (slotAt sc q).key ≤ slot.key := by
      intro q low slot held
      rcases (replaceRoot_holds nonempty).mp held with rfl | ⟨index, below, _, found⟩
      · exact low.trans larger.le
      · rw [← found]
        exact low.trans (MinHeap.root_le selects.ordered index below)
    intro q below
    rcases Nat.lt_succ_iff_lt_or_eq.mp below with before | rfl
    · rcases selects.best q before with ⟨index, inside, found⟩ | omitted
      · by_cases root : index = 0
        · right
          apply least
          rw [← found, root]
        · left
          exact (replaceRoot_holds nonempty).mpr
            (Or.inr ⟨index, inside, Nat.pos_of_ne_zero root, found⟩)
      · exact Or.inr (least q (omitted _ ⟨0, nonempty, rfl⟩))
    · exact Or.inl ((replaceRoot_holds nonempty).mpr (Or.inl rfl))

theorem Selects.keep (selects : Selects sc p heap)
    (smaller : ¬ (heap.entries 0).key < (slotAt sc p).key) : Selects sc (p + 1) heap where
  ordered := selects.ordered
  own := by
    intro slot held
    exact selects.own_succ (Or.inr held)
  distinct := selects.distinct
  best := by
    intro q below
    rcases Nat.lt_succ_iff_lt_or_eq.mp below with before | rfl
    · exact selects.best q before
    · right
      rintro slot ⟨index, inside, rfl⟩
      exact (not_lt.mp smaller).trans (MinHeap.root_le selects.ordered index inside)

/-- As long as there is room, every position is held. -/
theorem bestSoFar_complete (sc : Nat → Ieee) (m : Nat) :
    ∀ p ≤ m, ∀ q < p, (bestSoFar sc m p).Holds (slotAt sc q)
  | 0, _, q, below => absurd below (Nat.not_lt_zero q)
  | p + 1, room, q, below => by
    have few : (bestSoFar sc m p).size < m := by
      rw [bestSoFar_size]
      omega
    rw [bestSoFar, if_pos few, MinHeap.push_holds]
    rcases Nat.lt_succ_iff_lt_or_eq.mp below with before | rfl
    · exact Or.inr (bestSoFar_complete sc m p (by omega) q before)
    · exact Or.inl rfl

theorem bestSoFar_selects (sc : Nat → Ieee) {m : Nat} (positive : 0 < m) :
    ∀ p, Selects sc p (bestSoFar sc m p)
  | 0 => by
    have empty : ∀ slot, ¬ (bestSoFar sc m 0).Holds slot := by
      rintro slot ⟨index, below, _⟩
      exact Nat.not_lt_zero index below
    exact ⟨fun index _ below => absurd below (Nat.not_lt_zero index),
      fun slot held => absurd held (empty slot),
      fun index below => absurd below (Nat.not_lt_zero index),
      fun q below => absurd below (Nat.not_lt_zero q)⟩
  | p + 1 => by
    have before := bestSoFar_selects sc positive p
    have size := bestSoFar_size sc m p
    rw [bestSoFar]
    by_cases few : (bestSoFar sc m p).size < m
    · rw [if_pos few]
      exact before.push (bestSoFar_complete sc m p (by omega))
    · rw [if_neg few]
      split
      next larger => exact before.replace (by omega) larger
      next smaller => exact before.keep smaller

/-! ## The run -/

/-- The heap of the loop at position `p`. -/
structure AtPosition (sc : Nat → Ieee) (m p : Nat) (state : TopState) : Prop where
  length : state.slots.length = m
  n : state.n = (bestSoFar sc m p).size
  filled : Filled state.slots state.n (bestSoFar sc m p).entries

variable {state : TopState}

/-- With room left, the position is stored behind the others and moved up. -/
theorem AtPosition.push (here : AtPosition sc m p state) (few : state.n < m)
    (number : (sc p).isNan = false) :
    ∃ next, topStep sc m p state = some next ∧ AtPosition sc m (p + 1) next := by
  have length := here.length
  have n := here.n
  obtain ⟨stored, store, storedLength, storedFilled⟩ :=
    @storeSlot_filled _ _ _ here.filled state.n (slotAt sc p) (by omega) number (state.n + 1)
      fun other below => Nat.lt_succ_iff_lt_or_eq.mp below
  obtain ⟨moved, run, movedLength, movedFilled⟩ := moveUp_filled storedFilled (Nat.lt_succ_self _)
  have grown : bestSoFar sc m (p + 1) = (bestSoFar sc m p).push TopSlot.key (slotAt sc p) := by
    rw [bestSoFar, if_pos (n ▸ few)]
  refine ⟨⟨moved, state.n + 1⟩, ?_, movedLength.trans (storedLength.trans length), ?_, ?_⟩
  · rw [slotAt] at store
    simp only [topStep, if_pos few, store, run, Option.bind_eq_bind, Option.bind_some,
      Option.pure_def]
  · rw [grown, n]
    rfl
  · rw [grown]
    rw [n] at movedFilled ⊢
    exact movedFilled

/-- A position above the root takes its place and is moved down. -/
theorem AtPosition.replace (here : AtPosition sc m p state) (full : ¬ state.n < m)
    (nonempty : 0 < state.n) (number : (sc p).isNan = false)
    (larger : ((bestSoFar sc m p).entries 0).hs.lt (sc p) = true) :
    ∃ next, topStep sc m p state = some next ∧ AtPosition sc m (p + 1) next := by
  have size := bestSoFar_size sc m p
  have length := here.length
  have n := here.n
  have root := here.filled.holds 0 nonempty
  obtain ⟨stored, store, storedLength, storedFilled⟩ :=
    @storeSlot_filled _ _ _ here.filled 0 (slotAt sc p) (by omega) number state.n
      fun other below => Or.inl below
  obtain ⟨moved, run, movedLength, movedFilled⟩ := moveDown_filled storedFilled nonempty
  have above := (@hsLt_iff _ (slotAt sc p) (here.filled.number 0 nonempty) number).mp larger
  have replaced : bestSoFar sc m (p + 1) = replaceRoot (bestSoFar sc m p) (slotAt sc p) := by
    rw [bestSoFar, if_neg (n ▸ full), if_pos above]
  refine ⟨⟨moved, state.n⟩, ?_, movedLength.trans (storedLength.trans length), ?_, ?_⟩
  · rw [slotAt] at store
    simp only [topStep, if_neg full, root, larger, if_true, store, run, Option.bind_eq_bind,
      Option.bind_some, Option.pure_def]
  · rw [replaced, n]
    rfl
  · rw [replaced]
    rw [n] at movedFilled ⊢
    exact movedFilled

/-- Any other position changes nothing. -/
theorem AtPosition.keep (here : AtPosition sc m p state) (full : ¬ state.n < m)
    (nonempty : 0 < state.n) (number : (sc p).isNan = false)
    (smaller : ¬ ((bestSoFar sc m p).entries 0).hs.lt (sc p) = true) :
    ∃ next, topStep sc m p state = some next ∧ AtPosition sc m (p + 1) next := by
  have n := here.n
  have root := here.filled.holds 0 nonempty
  have compared := @hsLt_iff _ (slotAt sc p) (here.filled.number 0 nonempty) number
  have kept : bestSoFar sc m (p + 1) = bestSoFar sc m p := by
    rw [bestSoFar, if_neg (n ▸ full), if_neg fun less => smaller (compared.mpr less)]
  refine ⟨state, ?_, here.length, ?_, ?_⟩
  · simp only [topStep, if_neg full, root, if_neg smaller, Option.bind_eq_bind, Option.bind_some,
      Option.pure_def]
  · rw [kept, n]
  · rw [kept]
    exact here.filled

theorem AtPosition.step (here : AtPosition sc m p state) (positive : 0 < m)
    (number : (sc p).isNan = false) :
    ∃ next, topStep sc m p state = some next ∧ AtPosition sc m (p + 1) next := by
  by_cases few : state.n < m
  · exact here.push few number
  · have nonempty : 0 < state.n := by omega
    by_cases larger : ((bestSoFar sc m p).entries 0).hs.lt (sc p) = true
    · exact here.replace few nonempty number larger
    · exact here.keep few nonempty number larger

/-- The positions chosen of a row, in the order of the heap. -/
def chosenTopB (sc : Nat → Ieee) (ctx B : Nat) : List Nat :=
  (List.range (min B ctx)).map fun index => ((bestSoFar sc (min B ctx) ctx).entries index).hi

section Chosen

variable {ctx B : Nat}

theorem length_chosenTopB : (chosenTopB sc ctx B).length = min B ctx := by
  rw [chosenTopB, List.length_map, List.length_range]

theorem mem_chosenTopB :
    p ∈ chosenTopB sc ctx B ↔
      ∃ slot, (bestSoFar sc (min B ctx) ctx).Holds slot ∧ slot.hi = p := by
  have size := bestSoFar_size sc (min B ctx) ctx
  constructor
  · intro member
    obtain ⟨index, inside, found⟩ := List.mem_map.mp member
    rw [List.mem_range] at inside
    exact ⟨_, ⟨index, by omega, rfl⟩, found⟩
  · rintro ⟨slot, ⟨index, inside, rfl⟩, rfl⟩
    exact List.mem_map.mpr ⟨index, List.mem_range.mpr (by omega), rfl⟩

theorem bestSoFar_selects_of_mem (member : p ∈ chosenTopB sc ctx B) :
    Selects sc ctx (bestSoFar sc (min B ctx) ctx) := by
  obtain ⟨index, inside, _⟩ := List.mem_map.mp member
  rw [List.mem_range] at inside
  exact bestSoFar_selects sc (by omega) ctx

theorem nodup_chosenTopB (positive : 1 ≤ B) : (chosenTopB sc ctx B).Nodup := by
  rcases Nat.eq_zero_or_pos ctx with rfl | some
  · rw [chosenTopB, Nat.min_zero]
    exact List.nodup_nil
  · have size := bestSoFar_size sc (min B ctx) ctx
    have selects := @bestSoFar_selects sc (min B ctx) (by omega) ctx
    refine List.Nodup.map_on ?_ List.nodup_range
    intro first firstBelow second secondBelow same
    rw [List.mem_range] at firstBelow secondBelow
    exact selects.distinct first (by omega) second (by omega) same

theorem lt_of_mem_chosenTopB (member : p ∈ chosenTopB sc ctx B) : p < ctx := by
  obtain ⟨slot, holds, rfl⟩ := mem_chosenTopB.mp member
  exact ((bestSoFar_selects_of_mem member).own slot holds).1

/-- A position that was not chosen has no greater score than one that was. -/
theorem chosenTopB_best (numbers : ∀ p < ctx, (sc p).isNan = false)
    (member : p ∈ chosenTopB sc ctx B) {q : Nat} (inside : q < ctx)
    (omitted : q ∉ chosenTopB sc ctx B) : (sc p).lt (sc q) = false := by
  have selects := bestSoFar_selects_of_mem member
  have number := numbers p (lt_of_mem_chosenTopB member)
  obtain ⟨slot, holds, rfl⟩ := mem_chosenTopB.mp member
  rcases selects.best q inside with kept | worse
  · exact absurd (mem_chosenTopB.mpr ⟨_, kept, rfl⟩) omitted
  · have ordered := worse slot holds
    rw [(selects.own slot holds).2] at ordered
    have compared := @hsLt_iff (slotAt sc slot.hi) (slotAt sc q) number (numbers q inside)
    exact Bool.eq_false_iff.mpr fun greater => not_lt.mpr ordered (compared.mp greater)

end Chosen

/-- A buffer with a list written from an index on. -/
def writtenFrom (out : Nat → Nat) (start : Nat) (chosen : List Nat) (index : Nat) : Nat :=
  if start ≤ index then (chosen[index - start]?).getD (out index) else out index

theorem written_concat (out : Nat → Nat) (start : Nat) (chosen : List Nat) (next : Nat) :
    Function.update (writtenFrom out start chosen) (start + chosen.length) next =
      writtenFrom out start (chosen ++ [next]) := by
  funext index
  by_cases here : index = start + chosen.length
  · subst here
    rw [Function.update_self, writtenFrom, if_pos (Nat.le_add_right _ _), Nat.add_sub_cancel_left,
      List.getElem?_concat_length, Option.getD_some]
  · rw [Function.update_of_ne here, writtenFrom, writtenFrom]
    by_cases behind : start ≤ index
    · rw [if_pos behind, if_pos behind]
      rcases Nat.lt_or_gt_of_ne (show index - start ≠ chosen.length by omega) with before | after
      · rw [List.getElem?_append_left before]
      · rw [List.getElem?_eq_none after.le, List.getElem?_eq_none]
        rw [List.length_append]
        exact after
    · rw [if_neg behind, if_neg behind]

theorem topLoop_eq (positive : 1 ≤ B) {ctx : Nat} (numbers : ∀ p < ctx, (sc p).isNan = false)
    (junk : Nat → TopSlot) :
    ∃ state, topLoop sc ctx B junk = some state ∧ AtPosition sc (min B ctx) ctx state := by
  apply @runEach_range TopState _ (AtPosition sc (min B ctx)) ctx
  · intro p below state here
    exact here.step (by omega) (numbers p below)
  · refine ⟨by rw [List.length_map, List.length_range], rfl, ?_, ?_⟩
    · intro index below
      exact absurd below (Nat.not_lt_zero index)
    · intro index below
      exact absurd below (Nat.not_lt_zero index)

theorem copyChosen_eq {ctx : Nat} {state : TopState} (final : AtPosition sc (min B ctx) ctx state)
    (start : Nat) (out : Nat → Nat) :
    copyChosen state start out = some (writtenFrom out start (chosenTopB sc ctx B)) := by
  have size : state.n = min B ctx := by
    rw [final.n, bestSoFar_size]
    omega
  obtain ⟨last, run, done⟩ := @runEach_range (Nat → Nat)
    (fun j out => (state.slots[j]?).map fun slot => Function.update out (start + j) slot.hi)
    (fun j now => now = writtenFrom out start ((chosenTopB sc ctx B).take j)) state.n
    (by
      rintro j below now rfl
      refine ⟨_, by rw [final.filled.holds j below, Option.map_some], ?_⟩
      have inside : j < (chosenTopB sc ctx B).length := by
        rw [length_chosenTopB, ← size]
        exact below
      rw [List.take_succ_eq_append_getElem inside, ← written_concat, List.length_take,
        Nat.min_eq_left inside.le]
      simp only [chosenTopB, List.getElem_map, List.getElem_range])
    out (by funext index; simp [writtenFrom])
  rw [copyChosen, run, done, List.take_of_length_le]
  rw [length_chosenTopB, size]

/-- A block writes what the host function writes, and nothing else; the other threads write
nothing. -/
theorem kTopbDev_eq (positive : 1 ≤ B) {ctx Pstr h : Nat} {scores : Nat → Ieee}
    (numbers : ∀ p < ctx, (scores (h * Pstr + p)).isNan = false) (junk : Nat → TopSlot)
    (thread : Nat) (ri mOut : Nat → Nat) :
    kTopbDev scores ctx Pstr B junk h thread ri mOut =
      if thread ≠ 0 then some (ri, mOut)
      else some (writtenFrom ri (h * Pstr) (chosenTopB (fun p => scores (h * Pstr + p)) ctx B),
        Function.update mOut h (min B ctx)) := by
  obtain ⟨state, run, final⟩ := topLoop_eq positive numbers junk
  have size : state.n = min B ctx := by
    rw [final.n, bestSoFar_size]
    omega
  simp only [kTopbDev, run, copyChosen_eq final, size, Option.bind_eq_bind, Option.bind_some,
    Option.pure_def]

theorem spOracleTopB_eq (positive : 1 ≤ B) {ctx : Nat} (numbers : ∀ p < ctx, (sc p).isNan = false)
    (junk : Nat → TopSlot) (out : Nat → Nat) :
    spOracleTopB sc ctx B junk out = some (writtenFrom out 0 (chosenTopB sc ctx B), min B ctx) := by
  obtain ⟨state, run, final⟩ := topLoop_eq positive numbers junk
  have size : state.n = min B ctx := by
    rw [final.n, bestSoFar_size]
    omega
  simp only [spOracleTopB, run, copyChosen_eq final, size, Option.bind_eq_bind, Option.bind_some,
    Option.pure_def]

/-- The selection is exact: as many positions as there is room for, none twice, none omitted with
a greater score than one chosen; the heap is used below `min B ctx` only, and the device writes the
list that the host writes. -/
theorem topB_exact (sc : Nat → Ieee) (ctx B : Nat) (positive : 1 ≤ B)
    (numbers : ∀ p < ctx, (sc p).isNan = false) :
    ∃ chosen : List Nat, chosen.length = min B ctx ∧ chosen.Nodup ∧ (∀ p ∈ chosen, p < ctx) ∧
      (∀ p ∈ chosen, ∀ q < ctx, q ∉ chosen → (sc p).lt (sc q) = false) ∧
      (∀ junk out, spOracleTopB sc ctx B junk out = some (writtenFrom out 0 chosen, min B ctx)) ∧
      ∀ scores Pstr h, (∀ p < ctx, scores (h * Pstr + p) = sc p) → ∀ junk ri mOut,
        kTopbDev scores ctx Pstr B junk h 0 ri mOut =
          some (writtenFrom ri (h * Pstr) chosen, Function.update mOut h (min B ctx)) := by
  refine ⟨chosenTopB sc ctx B, length_chosenTopB, nodup_chosenTopB positive, ?_, ?_, ?_, ?_⟩
  · intro p member
    exact lt_of_mem_chosenTopB member
  · intro p member q inside omitted
    exact chosenTopB_best numbers member inside omitted
  · exact spOracleTopB_eq positive numbers
  · intro scores Pstr h same junk ri mOut
    have sameChosen : chosenTopB (fun p => scores (h * Pstr + p)) ctx B = chosenTopB sc ctx B := by
      rw [chosenTopB, chosenTopB, bestSoFar_congr same]
    rw [kTopbDev_eq positive fun p inside => (same p inside).symm ▸ numbers p inside, sameChosen]
    rfl

/-- A row with ties and both infinities. -/
def tiedRow (p : Nat) : Ieee :=
  if p = 0 then .negInf else if p = 3 then .posInf else .finite 1

theorem topB_exact_tied :
    ∃ chosen : List Nat, chosen.length = 3 ∧ chosen.Nodup ∧
      ∀ junk out, spOracleTopB tiedRow 5 3 junk out = some (writtenFrom out 0 chosen, 3) := by
  obtain ⟨chosen, length, distinct, _, _, host, _⟩ := topB_exact tiedRow 5 3 (by decide) (by decide)
  exact ⟨chosen, length, distinct, host⟩

end KairosEngine.Cuda
