import Mathlib.Data.Nat.ModEq
import Mathlib.Logic.Function.Basic

/-!
# Rings with an undo journal

A ring of `width` slots holds the most recent rows of an append-only history:
the row of position `q` lives in slot `q % width`.  Every append first saves
the row it overwrites in a journal indexed by `position - base`, so that a pop
can put it back.  The rules below say which positions survive each operation;
nothing here depends on what a row is.
-/

namespace KairosEngine.Library

universe u

/-- A ring together with the journal that undoes its latest appends. -/
@[ext]
structure UndoRing (Row : Type u) where
  width : Nat
  pos : Nat
  base : Nat
  slots : Nat → Row
  journal : Nat → Row

namespace UndoRing

variable {Row : Type u}

/-- Move the journal's origin forward once `capacity` entries are pending.
The entries themselves stay where they are. -/
def slide (capacity : Nat) (ring : UndoRing Row) : UndoRing Row :=
  if capacity ≤ ring.pos - ring.base then
    { ring with base := ring.pos - (capacity - 1) }
  else
    ring

@[simp]
theorem slide_pos (capacity : Nat) (ring : UndoRing Row) :
    (ring.slide capacity).pos = ring.pos := by
  unfold slide
  split <;> rfl

@[simp]
theorem slide_width (capacity : Nat) (ring : UndoRing Row) :
    (ring.slide capacity).width = ring.width := by
  unfold slide
  split <;> rfl

/-- Append a row, saving the row it overwrites. -/
def push (row : Row) (ring : UndoRing Row) : UndoRing Row :=
  { ring with
    pos := ring.pos + 1
    slots := Function.update ring.slots (ring.pos % ring.width) row
    journal := Function.update ring.journal (ring.pos - ring.base)
      (ring.slots (ring.pos % ring.width)) }

/-- Drop the latest row and restore what its append had saved. -/
def pop (ring : UndoRing Row) : UndoRing Row :=
  { ring with
    pos := ring.pos - 1
    slots := Function.update ring.slots ((ring.pos - 1) % ring.width)
      (ring.journal (ring.pos - 1 - ring.base)) }

/-- Drop the latest `count` rows, newest first. -/
def popN : Nat → UndoRing Row → UndoRing Row
  | 0, ring => ring
  | count + 1, ring => popN count ring.pop

theorem popN_succ_eq (count : Nat) (ring : UndoRing Row) :
    ring.popN (count + 1) = (ring.popN count).pop := by
  induction count generalizing ring with
  | zero => rfl
  | succ count inductionHypothesis =>
      rw [popN, inductionHypothesis]
      rfl

@[simp]
theorem popN_pos (count : Nat) (ring : UndoRing Row) :
    (ring.popN count).pos = ring.pos - count := by
  induction count with
  | zero => rfl
  | succ count inductionHypothesis =>
      rw [popN_succ_eq]
      simp only [pop, inductionHypothesis]
      omega

@[simp]
theorem popN_base (count : Nat) (ring : UndoRing Row) :
    (ring.popN count).base = ring.base := by
  induction count with
  | zero => rfl
  | succ count inductionHypothesis => simp only [popN_succ_eq, pop, inductionHypothesis]

@[simp]
theorem popN_width (count : Nat) (ring : UndoRing Row) :
    (ring.popN count).width = ring.width := by
  induction count with
  | zero => rfl
  | succ count inductionHypothesis => simp only [popN_succ_eq, pop, inductionHypothesis]

@[simp]
theorem popN_journal (count : Nat) (ring : UndoRing Row) :
    (ring.popN count).journal = ring.journal := by
  induction count with
  | zero => rfl
  | succ count inductionHypothesis => simp only [popN_succ_eq, pop, inductionHypothesis]

/-- Forget the journal: the present content can no longer be undone. -/
def settle (ring : UndoRing Row) : UndoRing Row :=
  { ring with base := ring.pos }

/-- Store consecutive rows from position `start` on. -/
def storeFrom (width : Nat) (slots : Nat → Row) (start : Nat) : List Row → Nat → Row
  | [] => slots
  | row :: rest =>
      storeFrom width (Function.update slots (start % width) row) (start + 1) rest

/-- Append many rows at once.  Only the last `width` of them reach a slot, and
the journal records none of them. -/
def sink (rows : List Row) (ring : UndoRing Row) : UndoRing Row :=
  let skipped := rows.length - ring.width
  { ring with
    pos := ring.pos + rows.length
    slots := storeFrom ring.width ring.slots (ring.pos + skipped) (rows.drop skipped) }

/-! ## Slots of neighbouring positions -/

/-- Two positions less than a ring apart never share a slot. -/
theorem mod_ne_of_lt_add {width older newer : Nat}
    (before : older < newer) (near : newer < older + width) :
    older % width ≠ newer % width := by
  intro collision
  have multiple : (newer - older) % width = 0 :=
    Nat.sub_mod_eq_zero_of_mod_eq collision.symm
  rw [Nat.mod_eq_of_lt (by omega)] at multiple
  omega

theorem storeFrom_other {width : Nat} (slots : Nat → Row) (start : Nat)
    (rows : List Row) (slot : Nat)
    (missed : ∀ offset < rows.length, (start + offset) % width ≠ slot) :
    storeFrom width slots start rows slot = slots slot := by
  induction rows generalizing slots start with
  | nil => rfl
  | cons row rest inductionHypothesis =>
      have untouched := missed 0 (by simp)
      simp only [storeFrom]
      rw [inductionHypothesis]
      · simp only [Nat.add_zero] at untouched
        exact Function.update_of_ne (Ne.symm untouched) _ _
      · intro offset bounded
        have shifted := missed (offset + 1) (by simpa using bounded)
        rwa [show start + 1 + offset = start + (offset + 1) by omega]

theorem storeFrom_stored (width : Nat) (slots : Nat → Row) (start : Nat)
    (rows : List Row) (fits : rows.length ≤ width) (offset : Nat) (row : Row)
    (present : rows[offset]? = some row) :
    storeFrom width slots start rows ((start + offset) % width) = row := by
  induction rows generalizing slots start offset with
  | nil => simp at present
  | cons head rest inductionHypothesis =>
      simp only [List.length_cons] at fits
      simp only [storeFrom]
      cases offset with
      | zero =>
          simp only [List.getElem?_cons_zero, Option.some.injEq] at present
          subst present
          rw [storeFrom_other]
          · simp
          · intro offset bounded
            exact Ne.symm (mod_ne_of_lt_add (by omega) (by omega))
      | succ offset =>
          simp only [List.getElem?_cons_succ] at present
          have stored := inductionHypothesis
            (Function.update slots (start % width) head) (start + 1)
            (by omega) offset present
          rwa [show start + 1 + offset = start + (offset + 1) by omega] at stored

theorem storeFrom_append {width : Nat} (slots : Nat → Row) (start : Nat)
    (older newer : List Row) :
    storeFrom width slots start (older ++ newer) =
      storeFrom width (storeFrom width slots start older) (start + older.length) newer := by
  induction older generalizing slots start with
  | nil => rfl
  | cons row rest inductionHypothesis =>
      simp only [List.cons_append, storeFrom, inductionHypothesis, List.length_cons]
      congr 1
      omega

/-- Storing a full turn of the ring forgets what its slots held. -/
theorem storeFrom_turn {width : Nat} {one other : Nat → Row} (start : Nat) (rows : List Row)
    (full : rows.length = width) (outside : ∀ slot, width ≤ slot → one slot = other slot) :
    storeFrom width one start rows = storeFrom width other start rows := by
  funext slot
  by_cases stored : ∃ offset < rows.length, (start + offset) % width = slot
  · obtain ⟨offset, bounded, rfl⟩ := stored
    have present : rows[offset]? = some rows[offset] := List.getElem?_eq_getElem bounded
    rw [storeFrom_stored width one start rows full.le offset _ present,
      storeFrom_stored width other start rows full.le offset _ present]
  · have untouched : ∀ offset < rows.length, (start + offset) % width ≠ slot :=
      fun offset bounded same => stored ⟨offset, bounded, same⟩
    rw [storeFrom_other one start rows slot untouched,
      storeFrom_other other start rows slot untouched]
    apply outside slot
    by_contra inside
    -- every slot of the ring is met within one turn
    have positive : 0 < width := by omega
    have below := Nat.mod_lt start positive
    refine untouched ((slot + width - start % width) % width)
      (full.symm ▸ Nat.mod_lt _ positive) ?_
    rw [Nat.add_mod_mod, ← Nat.mod_add_mod,
      show start % width + (slot + width - start % width) = slot + width by omega,
      Nat.add_mod_right, Nat.mod_eq_of_lt (by omega)]

theorem storeFrom_outside {width : Nat} (slots : Nat → Row) (start : Nat) (rows : List Row)
    {slot : Nat} (positive : 0 < width) (outside : width ≤ slot) :
    storeFrom width slots start rows slot = slots slot := by
  apply storeFrom_other
  intro offset _ same
  have below := Nat.mod_lt (start + offset) positive
  omega

/-- Only the last turn of a bulk store is left in the slots. -/
theorem storeFrom_drop {width : Nat} (slots : Nat → Row) (start : Nat) (rows : List Row)
    (positive : 0 < width) :
    storeFrom width slots (start + (rows.length - width)) (rows.drop (rows.length - width)) =
      storeFrom width slots start rows := by
  by_cases short : rows.length ≤ width
  · rw [Nat.sub_eq_zero_of_le short, Nat.add_zero, List.drop_zero]
  · generalize skipped_eq : rows.length - width = skipped
    conv_rhs => rw [← List.take_append_drop skipped rows, storeFrom_append,
      List.length_take_of_le (by omega)]
    apply storeFrom_turn
    · rw [List.length_drop]
      omega
    · intro slot outside
      exact (storeFrom_outside slots start _ positive outside).symm

/-! ## What the ring remembers of its history -/

/-- The ring remembers every `kept` position of the history `live`: in its slot
while no later append has taken the slot, in the journal afterwards. -/
structure Tracks (ring : UndoRing Row) (live : List Row) (kept : Nat → Prop) : Prop where
  length_eq : live.length = ring.pos
  base_le : ring.base ≤ ring.pos
  in_slot : ∀ q row, live[q]? = some row → kept q → ring.pos ≤ q + ring.width →
    ring.slots (q % ring.width) = row
  in_journal : ∀ q row, live[q]? = some row → kept q → q + ring.width < ring.pos →
    ring.base ≤ q + ring.width ∧ ring.journal (q + ring.width - ring.base) = row

/-- Positions whose row survives a slide: with the journal full, those still in
their slot. -/
def afterSlide (capacity : Nat) (ring : UndoRing Row) (kept : Nat → Prop) : Nat → Prop :=
  fun q => kept q ∧ (capacity ≤ ring.pos - ring.base → ring.pos ≤ q + ring.width)

/-- Positions whose row survives a bulk append of `count` rows: those whose slot it
leaves alone, and the fresh ones that reach a slot. -/
def afterSink (count : Nat) (ring : UndoRing Row) (kept : Nat → Prop) : Nat → Prop :=
  fun q =>
    if q < ring.pos then
      kept q ∧ (ring.pos ≤ q + ring.width → ring.pos + count ≤ q + ring.width)
    else
      ring.pos + count ≤ q + ring.width

/-- Positions whose row survives settling: those still in their slot. -/
def afterSettle (ring : UndoRing Row) (kept : Nat → Prop) : Nat → Prop :=
  fun q => kept q ∧ ring.pos ≤ q + ring.width

namespace Tracks

variable {ring : UndoRing Row} {live : List Row} {kept : Nat → Prop}

theorem lt_pos (tracked : ring.Tracks live kept) {q : Nat} {row : Row}
    (present : live[q]? = some row) : q < ring.pos := by
  have inside := (List.getElem?_eq_some_iff.mp present).1
  rwa [tracked.length_eq] at inside

theorem mono (tracked : ring.Tracks live kept) {fewer : Nat → Prop}
    (weaker : ∀ q, q < ring.pos → fewer q → kept q) : ring.Tracks live fewer where
  length_eq := tracked.length_eq
  base_le := tracked.base_le
  in_slot q row present survives :=
    tracked.in_slot q row present (weaker q (tracked.lt_pos present) survives)
  in_journal q row present survives :=
    tracked.in_journal q row present (weaker q (tracked.lt_pos present) survives)

theorem slide (tracked : ring.Tracks live kept) (capacity : Nat) :
    (ring.slide capacity).Tracks live (ring.afterSlide capacity kept) := by
  unfold UndoRing.slide
  split
  next full =>
    refine ⟨tracked.length_eq, Nat.sub_le _ _, ?_, ?_⟩
    · intro q row present survives near
      exact tracked.in_slot q row present survives.1 near
    · -- a position that lost its slot before the slide is not among the survivors
      intro q row present survives far
      have near := survives.2 full
      simp only at far
      omega
  next room => exact tracked.mono fun q _ survives => survives.1

theorem push (tracked : ring.Tracks live kept) (row : Row)
    (width_pos : 0 < ring.width) :
    (ring.push row).Tracks (live ++ [row]) (fun q => q = ring.pos ∨ kept q) where
  length_eq := by simp [UndoRing.push, tracked.length_eq]
  base_le := by
    have bounded := tracked.base_le
    simp only [UndoRing.push]
    omega
  in_slot q stored present survives near := by
    simp only [UndoRing.push] at near ⊢
    by_cases newest : q = ring.pos
    · subst newest
      rw [← tracked.length_eq, List.getElem?_concat_length, Option.some.injEq] at present
      simpa using present
    · have inside := (List.getElem?_eq_some_iff.mp present).1
      simp only [List.length_append, List.length_singleton, tracked.length_eq] at inside
      have older : q < ring.pos := by omega
      rw [List.getElem?_append_left (by rw [tracked.length_eq]; exact older)] at present
      rw [Function.update_of_ne (mod_ne_of_lt_add older (by omega))]
      exact tracked.in_slot q stored present (survives.resolve_left newest) (by omega)
  in_journal q stored present survives far := by
    simp only [UndoRing.push] at far ⊢
    have older : q < ring.pos := by omega
    have kept_q : kept q := survives.resolve_left (by omega)
    rw [List.getElem?_append_left (by rw [tracked.length_eq]; exact older)] at present
    have bounded := tracked.base_le
    by_cases evicted : q + ring.width = ring.pos
    · -- this append is the one that takes the slot of `q`
      refine ⟨by omega, ?_⟩
      rw [evicted, Function.update_self, ← evicted, Nat.add_mod_right]
      exact tracked.in_slot q stored present kept_q (by omega)
    · obtain ⟨reachable, saved⟩ := tracked.in_journal q stored present kept_q (by omega)
      refine ⟨reachable, ?_⟩
      rw [Function.update_of_ne (by omega)]
      exact saved

theorem pop (tracked : ring.Tracks live kept) (pending : ring.base < ring.pos) :
    ring.pop.Tracks (live.take (ring.pos - 1)) kept where
  length_eq := by
    simp only [UndoRing.pop, List.length_take, tracked.length_eq]
    omega
  base_le := by
    simp only [UndoRing.pop]
    omega
  in_slot q row present survives near := by
    simp only [UndoRing.pop] at near ⊢
    rw [List.getElem?_take] at present
    split at present
    next older =>
      by_cases evicted : q + ring.width = ring.pos - 1
      · -- the popped row had taken this slot; the journal gives it back
        have saved := (tracked.in_journal q row present survives (by omega)).2
        rw [← evicted, Nat.add_mod_right, Function.update_self]
        exact saved
      · rw [Function.update_of_ne (mod_ne_of_lt_add older (by omega))]
        exact tracked.in_slot q row present survives (by omega)
    next => simp at present
  in_journal q row present survives far := by
    simp only [UndoRing.pop] at far ⊢
    rw [List.getElem?_take] at present
    split at present
    next => exact tracked.in_journal q row present survives (by omega)
    next => simp at present

theorem popN (tracked : ring.Tracks live kept) (count : Nat)
    (pending : count ≤ ring.pos - ring.base) :
    (ring.popN count).Tracks (live.take (ring.pos - count)) kept := by
  induction count generalizing ring live with
  | zero =>
      have whole : live.take ring.pos = live :=
        List.take_of_length_le (by rw [tracked.length_eq])
      simpa only [UndoRing.popN, Nat.sub_zero, whole] using tracked
  | succ count inductionHypothesis =>
      have popped := inductionHypothesis (tracked.pop (by omega))
        (by simp only [UndoRing.pop]; omega)
      have taken : (live.take (ring.pos - 1)).take (ring.pop.pos - count) =
          live.take (ring.pos - (count + 1)) := by
        rw [List.take_take]
        congr 1
        simp only [UndoRing.pop]
        omega
      rwa [taken] at popped

theorem settle (tracked : ring.Tracks live kept) :
    ring.settle.Tracks live (ring.afterSettle kept) where
  length_eq := tracked.length_eq
  base_le := Nat.le_refl _
  in_slot q row present survives near :=
    tracked.in_slot q row present survives.1 near
  in_journal q row present survives far := by
    have near := survives.2
    simp only [UndoRing.settle] at far
    omega

theorem sink (tracked : ring.Tracks live kept) (rows : List Row) :
    (ring.sink rows).Tracks (live ++ rows) (ring.afterSink rows.length kept) where
  length_eq := by simp [UndoRing.sink, tracked.length_eq]
  base_le := by
    have bounded := tracked.base_le
    simp only [UndoRing.sink]
    omega
  in_slot q row present survives near := by
    simp only [UndoRing.sink] at near ⊢
    by_cases older : q < ring.pos
    · rw [List.getElem?_append_left (by rw [tracked.length_eq]; exact older)] at present
      simp only [afterSink, if_pos older] at survives
      rw [storeFrom_other]
      · exact tracked.in_slot q row present survives.1 (by omega)
      · intro offset bounded
        simp only [List.length_drop] at bounded
        exact Ne.symm (mod_ne_of_lt_add (by omega) (by omega))
    · -- a fresh row that reached a slot: the bulk store wrote it last
      rw [List.getElem?_append_right (by rw [tracked.length_eq]; omega),
        tracked.length_eq] at present
      have stored := storeFrom_stored ring.width ring.slots (ring.pos + (rows.length - ring.width))
        (rows.drop (rows.length - ring.width)) (by simp only [List.length_drop]; omega)
        (q - ring.pos - (rows.length - ring.width)) row
        (by
          rw [List.getElem?_drop]
          rwa [show rows.length - ring.width +
            (q - ring.pos - (rows.length - ring.width)) = q - ring.pos by omega])
      rwa [show ring.pos + (rows.length - ring.width) +
        (q - ring.pos - (rows.length - ring.width)) = q by omega] at stored
  in_journal q row present survives far := by
    simp only [UndoRing.sink] at far ⊢
    by_cases older : q < ring.pos
    · rw [List.getElem?_append_left (by rw [tracked.length_eq]; exact older)] at present
      simp only [afterSink, if_pos older] at survives
      have lost : q + ring.width < ring.pos := by
        by_contra inside
        have still := survives.2 (by omega)
        omega
      exact tracked.in_journal q row present survives.1 lost
    · simp only [afterSink, if_neg older] at survives
      omega

end Tracks

/-- A ring that has not filled yet remembers whatever its slots hold. -/
theorem Tracks.of_young {ring : UndoRing Row} {live : List Row} {kept : Nat → Prop}
    (length_eq : live.length = ring.pos) (base_le : ring.base ≤ ring.pos)
    (young : ring.pos ≤ ring.width)
    (holds : ∀ q row, live[q]? = some row → ring.slots (q % ring.width) = row) :
    ring.Tracks live kept where
  length_eq := length_eq
  base_le := base_le
  in_slot q row present _ _ := holds q row present
  in_journal q row _ _ far := by omega

/-- An empty ring remembers its empty history. -/
theorem tracks_empty (width : Nat) (slots journal : Nat → Row) (kept : Nat → Prop) :
    (UndoRing.mk width 0 0 slots journal).Tracks [] kept where
  length_eq := rfl
  base_le := Nat.le_refl _
  in_slot q row present := by simp at present
  in_journal q row present := by simp at present

end UndoRing

end KairosEngine.Library
