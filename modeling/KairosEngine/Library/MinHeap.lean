import Mathlib.Logic.Equiv.Basic
import Mathlib.Order.Lattice
import Mathlib.Tactic.Common

/-!
# Binary heaps in an array

A heap of `size` entries in a buffer, smallest key first, with the two sifts written as
loops of swaps.  The rules say which entries it holds and that the root is a smallest
one; duplicates are allowed and nothing here depends on what an entry is.
-/

namespace KairosEngine.Library

universe u v

structure MinHeap (Entry : Type u) where
  entries : Nat → Entry
  size : Nat

namespace MinHeap

variable {Entry : Type u} {Key : Type v} [LinearOrder Key] (key : Entry → Key)

def parent (index : Nat) : Nat := (index - 1) / 2

def swap (entries : Nat → Entry) (left right : Nat) : Nat → Entry :=
  entries ∘ Equiv.swap left right

/-- Move the entry at `index` up while it is smaller than its parent. -/
def siftUp (entries : Nat → Entry) (index : Nat) : Nat → Entry :=
  if 0 < index ∧ key (entries index) < key (entries (parent index)) then
    siftUp (swap entries index (parent index)) (parent index)
  else
    entries
termination_by index
decreasing_by
  unfold parent
  omega

/-- The challenger where it is in the heap and smaller. -/
def better (entries : Nat → Entry) (size holder challenger : Nat) : Nat :=
  if challenger < size ∧ key (entries challenger) < key (entries holder) then challenger
  else holder

/-- The smallest of a node and its two children. -/
def least (entries : Nat → Entry) (size index : Nat) : Nat :=
  better key entries size (better key entries size index (2 * index + 1)) (2 * index + 2)

theorem better_cases (entries : Nat → Entry) (size holder challenger : Nat) :
    better key entries size holder challenger = holder ∨
      better key entries size holder challenger = challenger ∧ challenger < size := by
  unfold better
  split
  next wins => exact Or.inr ⟨rfl, wins.1⟩
  next => exact Or.inl rfl

theorem least_cases (entries : Nat → Entry) (size index : Nat) :
    least key entries size index = index ∨
      (index < least key entries size index ∧ least key entries size index < size ∧
        parent (least key entries size index) = index) := by
  unfold parent least
  have second := better_cases key entries size
    (better key entries size index (2 * index + 1)) (2 * index + 2)
  have first := better_cases key entries size index (2 * index + 1)
  omega

/-- Move the entry at `index` down while a child is smaller. -/
def siftDown (entries : Nat → Entry) (size index : Nat) : Nat → Entry :=
  if least key entries size index = index then
    entries
  else
    siftDown (swap entries index (least key entries size index)) size
      (least key entries size index)
termination_by size - index
decreasing_by
  have moved := least_cases key entries size index
  omega

def push (heap : MinHeap Entry) (entry : Entry) : MinHeap Entry where
  entries := siftUp key (fun index => if index = heap.size then entry else heap.entries index)
    heap.size
  size := heap.size + 1

/-- The root, and the heap without it. -/
def pop (heap : MinHeap Entry) : Entry × MinHeap Entry :=
  let last := heap.size - 1
  (heap.entries 0,
    { entries := siftDown key
        (fun index => if index = 0 then heap.entries last else heap.entries index) last 0
      size := last })

/-! ## What a heap holds -/

def Holds (heap : MinHeap Entry) (entry : Entry) : Prop :=
  ∃ index < heap.size, heap.entries index = entry

variable {key}

theorem swap_holds {entries : Nat → Entry} {size left right : Nat} (inLeft : left < size)
    (inRight : right < size) (entry : Entry) :
    (∃ index < size, swap entries left right index = entry) ↔
      ∃ index < size, entries index = entry := by
  have inside : ∀ index < size, Equiv.swap left right index < size := by
    intro index below
    rw [Equiv.swap_apply_def]
    split
    next => exact inRight
    next =>
      split
      next => exact inLeft
      next => exact below
  constructor
  · rintro ⟨index, below, found⟩
    exact ⟨Equiv.swap left right index, inside index below, found⟩
  · rintro ⟨index, below, found⟩
    refine ⟨Equiv.swap left right index, inside index below, ?_⟩
    rw [swap, Function.comp_apply, Equiv.swap_apply_self, found]

theorem siftUp_holds {entries : Nat → Entry} {size index : Nat} (inside : index < size)
    (entry : Entry) :
    (∃ slot < size, siftUp key entries index slot = entry) ↔
      ∃ slot < size, entries slot = entry := by
  induction entries, index using siftUp.induct key with
  | case1 entries index moves inductionHypothesis =>
      have above : parent index < index := by
        unfold parent
        omega
      rw [siftUp, if_pos moves, inductionHypothesis (Nat.lt_trans above inside),
        swap_holds inside (Nat.lt_trans above inside)]
  | case2 entries index stays => rw [siftUp, if_neg stays]

theorem siftDown_holds {entries : Nat → Entry} {size index : Nat} (inside : index < size)
    (entry : Entry) :
    (∃ slot < size, siftDown key entries size index slot = entry) ↔
      ∃ slot < size, entries slot = entry := by
  induction entries, index using siftDown.induct key size with
  | case1 entries index stays => rw [siftDown, if_pos stays]
  | case2 entries index moves inductionHypothesis =>
      have below : least key entries size index < size :=
        ((least_cases key entries size index).resolve_left moves).2.1
      rw [siftDown, if_neg moves, inductionHypothesis below, swap_holds inside below]

/-- The entries below `size`, in another order. -/
def Permutes (size : Nat) (entries moved : Nat → Entry) : Prop :=
  ∃ order : Equiv.Perm Nat, (∀ index < size, order index < size) ∧ moved = entries ∘ order

theorem Permutes.swap {entries moved : Nat → Entry} {size left right : Nat} (inLeft : left < size)
    (inRight : right < size) (permuted : Permutes size (swap entries left right) moved) :
    Permutes size entries moved := by
  obtain ⟨order, inside, rfl⟩ := permuted
  refine ⟨order.trans (Equiv.swap left right), fun index below => ?_, rfl⟩
  rw [Equiv.trans_apply, Equiv.swap_apply_def]
  split
  next => exact inRight
  next =>
    split
    next => exact inLeft
    next => exact inside index below

theorem siftUp_permutes {entries : Nat → Entry} {size index : Nat} (inside : index < size) :
    Permutes size entries (siftUp key entries index) := by
  induction entries, index using siftUp.induct key with
  | case1 entries index moves inductionHypothesis =>
      have above : parent index < size := by
        unfold parent
        omega
      rw [siftUp, if_pos moves]
      exact (inductionHypothesis above).swap inside above
  | case2 entries index stays =>
      rw [siftUp, if_neg stays]
      exact ⟨Equiv.refl _, fun index below => below, rfl⟩

theorem siftDown_permutes {entries : Nat → Entry} {size index : Nat} (inside : index < size) :
    Permutes size entries (siftDown key entries size index) := by
  induction entries, index using siftDown.induct key size with
  | case1 entries index stays =>
      rw [siftDown, if_pos stays]
      exact ⟨Equiv.refl _, fun index below => below, rfl⟩
  | case2 entries index moves inductionHypothesis =>
      have below : least key entries size index < size :=
        ((least_cases key entries size index).resolve_left moves).2.1
      rw [siftDown, if_neg moves]
      exact (inductionHypothesis below).swap inside below

/-- Entries that a feature tells apart are told apart in any order. -/
theorem Permutes.injOn {Feature : Type v} {feature : Entry → Feature} {entries moved : Nat → Entry}
    {size : Nat} (permuted : Permutes size entries moved)
    (distinct : ∀ first < size, ∀ second < size,
      feature (entries first) = feature (entries second) → first = second) :
    ∀ first < size, ∀ second < size, feature (moved first) = feature (moved second) →
      first = second := by
  obtain ⟨order, inside, rfl⟩ := permuted
  intro first firstBelow second secondBelow same
  exact order.injective (distinct _ (inside first firstBelow) _ (inside second secondBelow) same)

theorem push_holds {heap : MinHeap Entry} {pushed entry : Entry} :
    (heap.push key pushed).Holds entry ↔ entry = pushed ∨ heap.Holds entry := by
  unfold Holds push
  rw [siftUp_holds (Nat.lt_succ_self heap.size)]
  constructor
  · rintro ⟨index, below, found⟩
    by_cases last : index = heap.size
    · rw [if_pos last] at found
      exact Or.inl found.symm
    · rw [if_neg last] at found
      exact Or.inr ⟨index, by omega, found⟩
  · rintro (rfl | ⟨index, below, found⟩)
    · exact ⟨heap.size, Nat.lt_succ_self _, if_pos rfl⟩
    · refine ⟨index, by omega, ?_⟩
      rw [if_neg (by omega), found]

theorem pop_holds_root {heap : MinHeap Entry} (nonempty : 0 < heap.size) :
    heap.Holds (heap.pop key).1 := ⟨0, nonempty, rfl⟩

/-- What is left after a pop was there before, and only the root may be missing. -/
theorem pop_holds {heap : MinHeap Entry} (nonempty : 0 < heap.size) {entry : Entry} :
    ((heap.pop key).2.Holds entry → heap.Holds entry) ∧
      (heap.Holds entry → entry = (heap.pop key).1 ∨ (heap.pop key).2.Holds entry) := by
  have moved : (heap.pop key).2.Holds entry ↔ ∃ index < heap.size - 1,
      (if index = 0 then heap.entries (heap.size - 1) else heap.entries index) = entry := by
    unfold Holds pop
    by_cases single : heap.size - 1 = 0
    · simp only [single, Nat.not_lt_zero, false_and, exists_false]
    · exact siftDown_holds (Nat.pos_of_ne_zero single) entry
  rw [moved]
  constructor
  · rintro ⟨index, below, found⟩
    by_cases root : index = 0
    · rw [if_pos root] at found
      exact ⟨heap.size - 1, by omega, found⟩
    · rw [if_neg root] at found
      exact ⟨index, by omega, found⟩
  · rintro ⟨index, below, found⟩
    by_cases root : index = 0
    · subst root
      exact Or.inl found.symm
    · right
      by_cases last : index = heap.size - 1
      · subst last
        refine ⟨0, by omega, ?_⟩
        rw [if_pos rfl, found]
      · refine ⟨index, by omega, ?_⟩
        rw [if_neg root, found]

/-! ## The heap order -/

section Order

variable (key)

def Ordered (entries : Nat → Entry) (size : Nat) : Prop :=
  ∀ index, 0 < index → index < size → key (entries (parent index)) ≤ key (entries index)

/-- Ordered but for the entry at `hole`, which may be smaller than its parent. -/
structure AlmostUp (entries : Nat → Entry) (size hole : Nat) : Prop where
  elsewhere : ∀ index, 0 < index → index < size → index ≠ hole →
    key (entries (parent index)) ≤ key (entries index)
  across : 0 < hole → ∀ index, 0 < index → index < size → parent index = hole →
    key (entries (parent hole)) ≤ key (entries index)

/-- Ordered but for the entry at `hole`, which may be larger than its children. -/
structure AlmostDown (entries : Nat → Entry) (size hole : Nat) : Prop where
  elsewhere : ∀ index, 0 < index → index < size → parent index ≠ hole →
    key (entries (parent index)) ≤ key (entries index)
  across : 0 < hole → ∀ index, 0 < index → index < size → parent index = hole →
    key (entries (parent hole)) ≤ key (entries index)

end Order

theorem swap_left (entries : Nat → Entry) (left right : Nat) :
    swap entries left right left = entries right := by
  rw [swap, Function.comp_apply, Equiv.swap_apply_left]

theorem swap_right (entries : Nat → Entry) (left right : Nat) :
    swap entries left right right = entries left := by
  rw [swap, Function.comp_apply, Equiv.swap_apply_right]

theorem swap_other (entries : Nat → Entry) {left right index : Nat} (notLeft : index ≠ left)
    (notRight : index ≠ right) : swap entries left right index = entries index := by
  rw [swap, Function.comp_apply, Equiv.swap_apply_of_ne_of_ne notLeft notRight]

theorem parent_lt {index : Nat} (positive : 0 < index) : parent index < index := by
  unfold parent
  omega

theorem AlmostUp.move {entries : Nat → Entry} {size hole : Nat}
    (almost : AlmostUp key entries size hole) (inside : hole < size) (positive : 0 < hole)
    (smaller : key (entries hole) < key (entries (parent hole))) :
    AlmostUp key (swap entries hole (parent hole)) size (parent hole) := by
  have above := parent_lt positive
  constructor
  · intro index indexPositive below other
    by_cases moved : index = hole
    · subst moved
      rw [swap_left, swap_right]
      exact smaller.le
    · rw [swap_other entries moved other]
      by_cases child : parent index = hole
      · rw [child, swap_left]
        exact almost.across positive index indexPositive below child
      · by_cases sibling : parent index = parent hole
        · rw [sibling, swap_right]
          have beside := almost.elsewhere index indexPositive below moved
          rw [sibling] at beside
          exact smaller.le.trans beside
        · rw [swap_other entries child sibling]
          exact almost.elsewhere index indexPositive below moved
  · intro parentPositive index indexPositive below child
    have higher := parent_lt parentPositive
    have up := almost.elsewhere (parent hole) parentPositive (Nat.lt_trans above inside) (by omega)
    rw [swap_other entries (by omega : parent (parent hole) ≠ hole) (by omega)]
    by_cases moved : index = hole
    · rw [moved, swap_left]
      exact up
    · have notParent : index ≠ parent hole := by
        intro same
        have lower := parent_lt indexPositive
        omega
      rw [swap_other entries moved notParent]
      have down := almost.elsewhere index indexPositive below moved
      rw [child] at down
      exact up.trans down

theorem siftUp_ordered {entries : Nat → Entry} {size hole : Nat} (inside : hole < size)
    (almost : AlmostUp key entries size hole) : Ordered key (siftUp key entries hole) size := by
  induction entries, hole using siftUp.induct key with
  | case1 entries hole moves inductionHypothesis =>
      rw [siftUp, if_pos moves]
      have above := parent_lt moves.1
      exact inductionHypothesis (Nat.lt_trans above inside) (almost.move inside moves.1 moves.2)
  | case2 entries hole stays =>
      rw [siftUp, if_neg stays]
      intro index positive below
      by_cases here : index = hole
      · subst here
        exact not_lt.mp fun smaller => stays ⟨positive, smaller⟩
      · exact almost.elsewhere index positive below here

theorem push_ordered {heap : MinHeap Entry} {entry : Entry}
    (ordered : Ordered key heap.entries heap.size) :
    Ordered key (heap.push key entry).entries (heap.push key entry).size := by
  apply siftUp_ordered (Nat.lt_succ_self heap.size)
  constructor
  · intro index positive below other
    have above := parent_lt positive
    rw [if_neg other, if_neg (by omega)]
    exact ordered index positive (by omega)
  · intro _ index positive below child
    have above := parent_lt positive
    omega

theorem better_le_holder (entries : Nat → Entry) (size holder challenger : Nat) :
    key (entries (better key entries size holder challenger)) ≤ key (entries holder) := by
  unfold better
  split
  next wins => exact wins.2.le
  next => exact le_rfl

theorem better_le_challenger (entries : Nat → Entry) {size challenger : Nat}
    (below : challenger < size) (holder : Nat) :
    key (entries (better key entries size holder challenger)) ≤ key (entries challenger) := by
  unfold better
  split
  next => exact le_rfl
  next loses => exact not_lt.mp fun smaller => loses ⟨below, smaller⟩

theorem least_le_self (entries : Nat → Entry) (size hole : Nat) :
    key (entries (least key entries size hole)) ≤ key (entries hole) :=
  (better_le_holder entries size _ _).trans (better_le_holder entries size _ _)

theorem least_le {entries : Nat → Entry} {size hole index : Nat} (below : index < size)
    (positive : 0 < index) (child : parent index = hole) :
    key (entries (least key entries size hole)) ≤ key (entries index) := by
  have which : index = 2 * hole + 1 ∨ index = 2 * hole + 2 := by
    unfold parent at child
    omega
  rcases which with rfl | rfl
  · exact (better_le_holder entries size _ _).trans (better_le_challenger entries below _)
  · exact better_le_challenger entries below _

theorem AlmostDown.move {entries : Nat → Entry} {size hole : Nat}
    (almost : AlmostDown key entries size hole)
    (moves : least key entries size hole ≠ hole) :
    AlmostDown key (swap entries hole (least key entries size hole)) size
      (least key entries size hole) := by
  obtain ⟨deeper, below, child⟩ := (least_cases key entries size hole).resolve_left moves
  have leastLe := @least_le _ _ _ key entries size hole
  have selfLe := @least_le_self _ _ _ key entries size hole
  generalize least key entries size hole = next at *
  constructor
  · intro index positive indexBelow other
    have above := parent_lt positive
    by_cases atNext : index = next
    · subst atNext
      rw [child, swap_left, swap_right]
      exact selfLe
    · by_cases sibling : parent index = hole
      · rw [sibling, swap_left, swap_other entries (by omega) atNext]
        exact leastLe indexBelow positive sibling
      · rw [swap_other entries sibling other]
        by_cases atHole : index = hole
        · subst atHole
          rw [swap_left]
          exact almost.across positive next (by omega) below child
        · rw [swap_other entries atHole atNext]
          exact almost.elsewhere index positive indexBelow sibling
  · intro _ index positive indexBelow grandchild
    have above := parent_lt positive
    rw [child, swap_left, swap_other entries (by omega) (by omega)]
    have down := almost.elsewhere index positive indexBelow (by omega)
    rw [grandchild] at down
    exact down

theorem siftDown_ordered {entries : Nat → Entry} {size hole : Nat}
    (almost : AlmostDown key entries size hole) :
    Ordered key (siftDown key entries size hole) size := by
  induction entries, hole using siftDown.induct key size with
  | case1 entries hole stays =>
      rw [siftDown, if_pos stays]
      intro index positive below
      by_cases child : parent index = hole
      · have down := @least_le _ _ _ key entries size hole index below positive child
        rw [stays] at down
        rw [child]
        exact down
      · exact almost.elsewhere index positive below child
  | case2 entries hole moves inductionHypothesis =>
      rw [siftDown, if_neg moves]
      exact inductionHypothesis (almost.move moves)

theorem pop_ordered {heap : MinHeap Entry} (ordered : Ordered key heap.entries heap.size) :
    Ordered key (heap.pop key).2.entries (heap.pop key).2.size := by
  apply siftDown_ordered
  constructor
  · intro index positive below other
    rw [if_neg other, if_neg (by omega)]
    exact ordered index positive (by omega)
  · intro positive
    exact absurd positive (Nat.lt_irrefl 0)

/-- The root of a heap has the smallest key. -/
theorem root_le {entries : Nat → Entry} {size : Nat} (ordered : Ordered key entries size) :
    ∀ index < size, key (entries 0) ≤ key (entries index) := by
  intro index
  induction index using Nat.strongRecOn with
  | _ index inductionHypothesis =>
      intro below
      by_cases root : index = 0
      · rw [root]
      · have positive : 0 < index := Nat.pos_of_ne_zero root
        have above := parent_lt positive
        exact (inductionHypothesis (parent index) above (Nat.lt_trans above below)).trans
          (ordered index positive below)

theorem pop_le {heap : MinHeap Entry} (ordered : Ordered key heap.entries heap.size) {entry : Entry}
    (held : heap.Holds entry) : key (heap.pop key).1 ≤ key entry := by
  obtain ⟨index, below, rfl⟩ := held
  exact root_le ordered index below

end MinHeap

end KairosEngine.Library
