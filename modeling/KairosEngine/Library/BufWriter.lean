import Mathlib.Data.List.Basic

/-!
# Buffered writers

A buffered writer offers what it holds to a device that may take a part of it, or none.  What the
device did not take stays with the writer, also when the caller is told of a failure, and is the
first thing offered by the next call.
-/

namespace KairosEngine.Library

universe u

/-- How the device answers one write. -/
inductive WriteOutcome
  /-- It took so many items, and no more than it was offered. -/
  | wrote (count : Nat)
  | interrupted
  | failed
  deriving DecidableEq

@[ext]
structure BufWriter (Item : Type u) where
  /-- What the device has. -/
  device : List Item
  buffer : List Item
  deriving DecidableEq

/-- What a call leaves behind: the writer, whether it succeeded, and the answers it did not use. -/
structure Written (Item : Type u) where
  writer : BufWriter Item
  done : Bool
  outcomes : List WriteOutcome

namespace BufWriter

variable {Item : Type u}

/-- The buffer is offered until the device has all of it.  A device whose answers are used up takes
whatever is offered. -/
def flushBuf (writer : BufWriter Item) : List WriteOutcome → Written Item
  | [] => { writer := { device := writer.device ++ writer.buffer, buffer := [] }
            done := true, outcomes := [] }
  | outcome :: rest =>
      if writer.buffer = [] then { writer := writer, done := true, outcomes := outcome :: rest }
      else
        match outcome with
        | .failed => { writer := writer, done := false, outcomes := rest }
        | .wrote 0 => { writer := writer, done := false, outcomes := rest }
        | .interrupted => flushBuf writer rest
        | .wrote (count + 1) =>
            flushBuf { device := writer.device ++ writer.buffer.take (count + 1)
                       buffer := writer.buffer.drop (count + 1) } rest

/-- Items that would fill the buffer up make room first; as many items as the buffer can hold pass
it by, and what the device does not take of these is lost. -/
def writeAll (capacity : Nat) (writer : BufWriter Item) (items : List Item)
    (outcomes : List WriteOutcome) : Written Item :=
  if items.length < capacity - writer.buffer.length then
    { writer := { writer with buffer := writer.buffer ++ items }, done := true
      outcomes := outcomes }
  else
    let flushed :=
      if items.length > capacity - writer.buffer.length then writer.flushBuf outcomes
      else { writer := writer, done := true, outcomes := outcomes }
    if !flushed.done then flushed
    else if items.length ≥ capacity then
      let through := flushBuf { flushed.writer with buffer := items } flushed.outcomes
      { through with writer := { through.writer with buffer := flushed.writer.buffer } }
    else
      { flushed with
        writer := { flushed.writer with buffer := flushed.writer.buffer ++ items } }

/-! ## What the answers alone decide -/

/-- The first answer that is not an interruption takes nothing. -/
def Refuses : List WriteOutcome → Bool
  | [] => false
  | .interrupted :: rest => Refuses rest
  | .failed :: _ => true
  | .wrote count :: _ => count == 0

/-- So many items are taken before any answer takes nothing. -/
def Takes : Nat → List WriteOutcome → Bool
  | 0, _ => true
  | _ + 1, [] => true
  | items + 1, .interrupted :: rest => Takes (items + 1) rest
  | _ + 1, .failed :: _ => false
  | items + 1, .wrote count :: rest => count != 0 && Takes (items + 1 - count) rest

/-- What one answer makes of a writer that holds something. -/
theorem flushBuf_cons {writer : BufWriter Item} (holds : writer.buffer ≠ [])
    (outcome : WriteOutcome) (rest : List WriteOutcome) :
    writer.flushBuf (outcome :: rest) =
      match outcome with
      | .failed => { writer := writer, done := false, outcomes := rest }
      | .wrote 0 => { writer := writer, done := false, outcomes := rest }
      | .interrupted => flushBuf writer rest
      | .wrote (count + 1) =>
          flushBuf { device := writer.device ++ writer.buffer.take (count + 1)
                     buffer := writer.buffer.drop (count + 1) } rest := by
  rw [flushBuf.eq_def]
  exact if_neg holds

theorem flushBuf_empty {writer : BufWriter Item} (empty : writer.buffer = [])
    (outcomes : List WriteOutcome) :
    writer.flushBuf outcomes = { writer := writer, done := true, outcomes := outcomes } := by
  obtain ⟨device, buffer⟩ := writer
  cases empty
  cases outcomes with
  | nil => simp [flushBuf]
  | cons outcome rest => simp [flushBuf]

/-- Nothing that was handed over gets lost or changes its place. -/
theorem flushBuf_conserves (writer : BufWriter Item) (outcomes : List WriteOutcome) :
    (writer.flushBuf outcomes).writer.device ++ (writer.flushBuf outcomes).writer.buffer =
      writer.device ++ writer.buffer := by
  induction outcomes generalizing writer with
  | nil => exact List.append_nil _
  | cons outcome rest inductionHypothesis =>
      by_cases empty : writer.buffer = []
      · rw [flushBuf_empty empty]
      · rw [flushBuf_cons empty]
        match outcome with
        | .failed => rfl
        | .wrote 0 => rfl
        | .interrupted => exact inductionHypothesis writer
        | .wrote (count + 1) =>
            simp only [inductionHypothesis, List.append_assoc, List.take_append_drop]

/-- A flush reports success exactly when it leaves nothing behind. -/
theorem flushBuf_done_iff (writer : BufWriter Item) (outcomes : List WriteOutcome) :
    (writer.flushBuf outcomes).done = true ↔ (writer.flushBuf outcomes).writer.buffer = [] := by
  induction outcomes generalizing writer with
  | nil => simp [flushBuf]
  | cons outcome rest inductionHypothesis =>
      by_cases empty : writer.buffer = []
      · simp [flushBuf_empty empty, empty]
      · rw [flushBuf_cons empty]
        match outcome with
        | .failed => simp [empty]
        | .wrote 0 => simp [empty]
        | .interrupted => exact inductionHypothesis writer
        | .wrote (count + 1) => exact inductionHypothesis _

theorem flushBuf_done {writer : BufWriter Item} {outcomes : List WriteOutcome}
    (done : (writer.flushBuf outcomes).done = true) :
    (writer.flushBuf outcomes).writer =
      { device := writer.device ++ writer.buffer, buffer := [] } := by
  have conserved := flushBuf_conserves writer outcomes
  have empty := (flushBuf_done_iff writer outcomes).mp done
  rw [empty, List.append_nil] at conserved
  exact BufWriter.ext conserved empty

theorem flushBuf_failed {writer : BufWriter Item} {outcomes : List WriteOutcome}
    (failed : (writer.flushBuf outcomes).done = false) :
    (writer.flushBuf outcomes).writer.buffer ≠ [] := by
  intro empty
  rw [(flushBuf_done_iff writer outcomes).mpr empty] at failed
  nomatch failed

/-- Whether a flush succeeds depends on how much there is to flush alone. -/
theorem flushBuf_takes (writer : BufWriter Item) (outcomes : List WriteOutcome) :
    (writer.flushBuf outcomes).done = Takes writer.buffer.length outcomes := by
  induction outcomes generalizing writer with
  | nil => cases h : writer.buffer.length <;> rfl
  | cons outcome rest inductionHypothesis =>
      obtain ⟨device, buffer⟩ := writer
      cases buffer with
      | nil => simp [flushBuf_empty, Takes]
      | cons item items =>
          rw [flushBuf_cons (List.cons_ne_nil item items)]
          match outcome with
          | .failed => rfl
          | .wrote 0 => rfl
          | .interrupted => exact inductionHypothesis _
          | .wrote (count + 1) =>
              rw [inductionHypothesis, List.length_drop]
              rfl

/-- A refusal leaves everything as it is. -/
theorem flushBuf_refused {writer : BufWriter Item} (holds : writer.buffer ≠ [])
    {outcomes : List WriteOutcome} (refused : Refuses outcomes = true) :
    (writer.flushBuf outcomes).writer = writer ∧ (writer.flushBuf outcomes).done = false := by
  induction outcomes with
  | nil => nomatch refused
  | cons outcome rest inductionHypothesis =>
      rw [flushBuf_cons holds]
      match outcome with
      | .failed => exact ⟨rfl, rfl⟩
      | .wrote 0 => exact ⟨rfl, rfl⟩
      | .interrupted => exact inductionHypothesis refused
      | .wrote (count + 1) => nomatch refused

theorem flushBuf_device_le (writer : BufWriter Item) (outcomes : List WriteOutcome) :
    writer.device.length ≤ (writer.flushBuf outcomes).writer.device.length := by
  induction outcomes generalizing writer with
  | nil => simp [flushBuf]
  | cons outcome rest inductionHypothesis =>
      by_cases empty : writer.buffer = []
      · exact Nat.le_of_eq (congrArg (·.writer.device.length) (flushBuf_empty empty _)).symm
      · rw [flushBuf_cons empty]
        match outcome with
        | .failed => exact Nat.le_refl _
        | .wrote 0 => exact Nat.le_refl _
        | .interrupted => exact inductionHypothesis writer
        | .wrote (count + 1) =>
            apply Nat.le_trans _ (inductionHypothesis _)
            rw [List.length_append]
            exact Nat.le_add_right _ _

/-- Without a refusal the device has more than before. -/
theorem flushBuf_device_lt {writer : BufWriter Item} (holds : writer.buffer ≠ [])
    {outcomes : List WriteOutcome} (accepted : Refuses outcomes = false) :
    writer.device.length < (writer.flushBuf outcomes).writer.device.length := by
  have positive := List.length_pos_iff.mpr holds
  induction outcomes with
  | nil =>
      rw [flushBuf, List.length_append]
      exact Nat.lt_add_of_pos_right positive
  | cons outcome rest inductionHypothesis =>
      rw [flushBuf_cons holds]
      match outcome with
      | .failed => nomatch accepted
      | .wrote 0 => nomatch accepted
      | .interrupted => exact inductionHypothesis accepted
      | .wrote (count + 1) =>
          apply Nat.lt_of_lt_of_le _ (flushBuf_device_le _ rest)
          rw [List.length_append, List.length_take]
          omega

/-! ## Writing and flushing at once -/

/-- The flush is called only where the write succeeded. -/
def writeAndFlush (capacity : Nat) (writer : BufWriter Item) (items : List Item)
    (outcomes : List WriteOutcome) : Written Item :=
  let buffered := writer.writeAll capacity items outcomes
  if !buffered.done then buffered else buffered.writer.flushBuf buffered.outcomes

variable {capacity : Nat} {writer : BufWriter Item} {items : List Item}
  {outcomes : List WriteOutcome}

/-- Items that fit the empty buffer are flushed with what was there before, or a flush of that
alone fails, or it makes room for them. -/
theorem writeAndFlush_cases (fits : items.length < capacity) :
    writer.writeAndFlush capacity items outcomes =
        flushBuf { writer with buffer := writer.buffer ++ items } outcomes ∨
      writer.buffer ≠ [] ∧ (writer.flushBuf outcomes).done = false ∧
        writer.writeAndFlush capacity items outcomes = writer.flushBuf outcomes ∨
      writer.buffer ≠ [] ∧ (writer.flushBuf outcomes).done = true ∧
        writer.writeAndFlush capacity items outcomes =
          flushBuf { device := writer.device ++ writer.buffer, buffer := items }
            (writer.flushBuf outcomes).outcomes := by
  have small : ¬items.length ≥ capacity := Nat.not_le_of_lt fits
  by_cases roomy : items.length < capacity - writer.buffer.length
  · left
    simp [writeAndFlush, writeAll, if_pos roomy]
  · by_cases full : items.length > capacity - writer.buffer.length
    · have holds : writer.buffer ≠ [] := by
        intro empty
        simp only [empty, List.length_nil, Nat.sub_zero] at full
        omega
      right
      cases done : (writer.flushBuf outcomes).done with
      | false =>
          left
          refine ⟨holds, rfl, ?_⟩
          simp [writeAndFlush, writeAll, if_neg roomy, if_pos full, done]
      | true =>
          right
          refine ⟨holds, rfl, ?_⟩
          simp [writeAndFlush, writeAll, if_neg roomy, if_pos full, done, if_neg small,
            flushBuf_done done]
    · left
      simp [writeAndFlush, writeAll, if_neg full, if_neg small]

/-- A success hands over everything held, and the items behind it. -/
theorem writeAndFlush_done (fits : items.length < capacity)
    (done : (writer.writeAndFlush capacity items outcomes).done = true) :
    (writer.writeAndFlush capacity items outcomes).writer =
      { device := writer.device ++ writer.buffer ++ items, buffer := [] } := by
  rcases @writeAndFlush_cases _ _ writer items outcomes fits with
    flushed | ⟨_, failed, flushed⟩ | ⟨_, _, flushed⟩
  · rw [flushed] at done ⊢
    rw [flushBuf_done done, List.append_assoc]
  · rw [flushed, failed] at done
    nomatch done
  · rw [flushed] at done ⊢
    rw [flushBuf_done done]

theorem writeAndFlush_failed (fits : items.length < capacity)
    (failed : (writer.writeAndFlush capacity items outcomes).done = false) :
    (writer.writeAndFlush capacity items outcomes).writer.buffer ≠ [] := by
  rcases @writeAndFlush_cases _ _ writer items outcomes fits with
    flushed | ⟨_, _, flushed⟩ | ⟨_, _, flushed⟩
  all_goals
    rw [flushed] at failed ⊢
    exact flushBuf_failed failed

theorem writeAndFlush_takes (fits : items.length < capacity) (empty : writer.buffer = []) :
    (writer.writeAndFlush capacity items outcomes).done = Takes items.length outcomes := by
  rcases @writeAndFlush_cases _ _ writer items outcomes fits with
    flushed | ⟨holds, _, _⟩ | ⟨holds, _, _⟩
  · rw [flushed, flushBuf_takes, empty, List.nil_append]
  · exact absurd empty holds
  · exact absurd empty holds

theorem writeAndFlush_refused (fits : items.length < capacity) (nonempty : items ≠ [])
    (refused : Refuses outcomes = true) :
    (writer.writeAndFlush capacity items outcomes).done = false ∧
      (writer.writeAndFlush capacity items outcomes).writer.device = writer.device := by
  rcases @writeAndFlush_cases _ _ writer items outcomes fits with
    flushed | ⟨holds, _, flushed⟩ | ⟨holds, done, _⟩
  · have holds : writer.buffer ++ items ≠ [] := fun empty =>
      nonempty (List.append_eq_nil_iff.mp empty).2
    obtain ⟨same, failed⟩ := @flushBuf_refused _ { writer with buffer := _ } holds _ refused
    rw [flushed, same]
    exact ⟨failed, rfl⟩
  · obtain ⟨same, failed⟩ := flushBuf_refused holds refused
    rw [flushed, same]
    exact ⟨failed, rfl⟩
  · rw [(flushBuf_refused holds refused).2] at done
    nomatch done

theorem writeAndFlush_device_lt (fits : items.length < capacity) (nonempty : items ≠ [])
    (accepted : Refuses outcomes = false) :
    writer.device.length <
      (writer.writeAndFlush capacity items outcomes).writer.device.length := by
  rcases @writeAndFlush_cases _ _ writer items outcomes fits with
    flushed | ⟨holds, _, flushed⟩ | ⟨holds, done, flushed⟩
  · have holds : writer.buffer ++ items ≠ [] := fun empty =>
      nonempty (List.append_eq_nil_iff.mp empty).2
    rw [flushed]
    exact @flushBuf_device_lt _ { writer with buffer := _ } holds _ accepted
  · rw [flushed]
    exact flushBuf_device_lt holds accepted
  · rw [flushed]
    apply Nat.lt_of_lt_of_le _ (flushBuf_device_le _ _)
    rw [List.length_append]
    exact Nat.lt_add_of_pos_right (List.length_pos_iff.mpr holds)

theorem writeAndFlush_device_le (fits : items.length < capacity) (nonempty : items ≠ []) :
    writer.device.length ≤
      (writer.writeAndFlush capacity items outcomes).writer.device.length := by
  cases refused : Refuses outcomes with
  | true =>
      have same := (@writeAndFlush_refused _ _ writer _ _ fits nonempty refused).2
      exact Nat.le_of_eq (congrArg List.length same.symm)
  | false =>
      exact Nat.le_of_lt (writeAndFlush_device_lt fits nonempty refused)

end BufWriter

end KairosEngine.Library
