import Mathlib.Data.List.Infix
import Mathlib.Order.Lattice

/-!
# Logs that can be taken back

An append-only log of which the latest entries can be undone, at most `depth` of them: every append
counts as one that can be undone, and pushes the oldest of them out once `depth` is reached.
-/

namespace KairosEngine.Library

universe u

@[ext]
structure UndoLog (Entry : Type u) (depth : Nat) where
  entries : List Entry
  undoable : Nat
  undoable_le : undoable ≤ entries.length
  shallow : undoable ≤ depth

namespace UndoLog

variable {Entry : Type u} {depth : Nat}

def pushAll (rows : List Entry) (log : UndoLog Entry depth) : UndoLog Entry depth where
  entries := log.entries ++ rows
  undoable := min depth (log.undoable + rows.length)
  undoable_le := by
    have bounded := log.undoable_le
    rw [List.length_append]
    omega
  shallow := Nat.min_le_left _ _

def push (row : Entry) (log : UndoLog Entry depth) : UndoLog Entry depth := log.pushAll [row]

/-- Take the latest `count` entries back, if so many can be undone. -/
def rewind (count : Nat) (log : UndoLog Entry depth) : Option (UndoLog Entry depth) :=
  if fits : count ≤ log.undoable then
    some
      { entries := log.entries.take (log.entries.length - count)
        undoable := log.undoable - count
        undoable_le := by
          have bounded := log.undoable_le
          rw [List.length_take]
          omega
        shallow := (Nat.sub_le _ _).trans log.shallow }
  else
    none

/-- A rewind whose refusal is ignored. -/
def shear (count : Nat) (log : UndoLog Entry depth) : UndoLog Entry depth :=
  (log.rewind count).getD log

theorem length_foldl_set (positions : List Nat) (row : Entry) (entries : List Entry) :
    (positions.foldl (fun entries position => entries.set position row) entries).length =
      entries.length := by
  induction positions generalizing entries with
  | nil => rfl
  | cons position rest inductionHypothesis =>
      rw [List.foldl_cons, inductionHypothesis, List.length_set]

/-- Replace the entries at these positions. -/
def overwrite (positions : List Nat) (row : Entry) (log : UndoLog Entry depth) :
    UndoLog Entry depth where
  entries := positions.foldl (fun entries position => entries.set position row) log.entries
  undoable := log.undoable
  undoable_le := by
    rw [length_foldl_set]
    exact log.undoable_le
  shallow := log.shallow

@[simp]
theorem pushAll_entries (rows : List Entry) (log : UndoLog Entry depth) :
    (log.pushAll rows).entries = log.entries ++ rows := rfl

@[simp]
theorem pushAll_undoable (rows : List Entry) (log : UndoLog Entry depth) :
    (log.pushAll rows).undoable = min depth (log.undoable + rows.length) := rfl

theorem pushAll_nil (log : UndoLog Entry depth) : log.pushAll [] = log :=
  UndoLog.ext (List.append_nil _) (Nat.min_eq_right log.shallow)

theorem pushAll_pushAll (older newer : List Entry) (log : UndoLog Entry depth) :
    (log.pushAll older).pushAll newer = log.pushAll (older ++ newer) := by
  apply UndoLog.ext
  · exact List.append_assoc _ _ _
  · rw [pushAll_undoable, pushAll_undoable, pushAll_undoable, List.length_append]
    omega

@[simp]
theorem overwrite_undoable (positions : List Nat) (row : Entry) (log : UndoLog Entry depth) :
    (log.overwrite positions row).undoable = log.undoable := rfl

@[simp]
theorem overwrite_length (positions : List Nat) (row : Entry) (log : UndoLog Entry depth) :
    (log.overwrite positions row).entries.length = log.entries.length :=
  length_foldl_set positions row log.entries

theorem shear_of_le {count : Nat} {log : UndoLog Entry depth} (fits : count ≤ log.undoable) :
    (log.shear count).entries = log.entries.take (log.entries.length - count) ∧
      (log.shear count).undoable = log.undoable - count := by
  rw [shear, rewind, dif_pos fits]
  exact ⟨rfl, rfl⟩

theorem shear_of_lt {count : Nat} {log : UndoLog Entry depth} (deep : log.undoable < count) :
    log.shear count = log := by
  rw [shear, rewind, dif_neg (Nat.not_le.mpr deep)]
  rfl

theorem shear_zero (log : UndoLog Entry depth) : log.shear 0 = log := by
  obtain ⟨entries, undoable⟩ := shear_of_le (Nat.zero_le log.undoable)
  exact UndoLog.ext (entries.trans (List.take_length (l := log.entries))) undoable

/-- A rewind takes back no more than it is asked for. -/
theorem length_le_shear (count : Nat) (log : UndoLog Entry depth) :
    log.entries.length ≤ (log.shear count).entries.length + count := by
  rcases Nat.lt_or_ge log.undoable count with deep | fits
  · rw [shear_of_lt deep]
    exact Nat.le_add_right _ _
  · rw [(shear_of_le fits).1, List.length_take_of_le (Nat.sub_le _ _)]
    exact Nat.le_add_of_sub_le (Nat.le_refl _)

/-- It takes back all of that exactly where so many entries can be undone. -/
theorem shear_full_iff {count : Nat} {log : UndoLog Entry depth} :
    (log.shear count).entries.length + count = log.entries.length ↔ count ≤ log.undoable := by
  constructor
  · intro full
    by_contra deep
    rw [shear_of_lt (Nat.not_le.mp deep)] at full
    have none : count = 0 := Nat.add_eq_left.mp full
    exact deep (none ▸ Nat.zero_le _)
  · intro fits
    rw [(shear_of_le fits).1, List.length_take_of_le (Nat.sub_le _ _)]
    exact Nat.sub_add_cancel (Nat.le_trans fits log.undoable_le)

/-! ## What stands below -/

theorem prefix_pushAll {base : List Entry} {log : UndoLog Entry depth} (below : base <+: log.entries)
    (rows : List Entry) : base <+: (log.pushAll rows).entries :=
  below.trans (List.prefix_append log.entries rows)

theorem prefix_shear {base : List Entry} {log : UndoLog Entry depth} (below : base <+: log.entries)
    {count : Nat} (above : base.length + count ≤ log.entries.length) :
    base <+: (log.shear count).entries := by
  rcases Nat.lt_or_ge log.undoable count with deep | fits
  · rw [shear_of_lt deep]
    exact below
  · rw [(shear_of_le fits).1, List.prefix_take_iff]
    exact ⟨below, by omega⟩

theorem prefix_overwrite {base : List Entry} {log : UndoLog Entry depth}
    (below : base <+: log.entries) {positions : List Nat}
    (above : ∀ position ∈ positions, base.length ≤ position) (row : Entry) :
    base <+: (log.overwrite positions row).entries := by
  have kept : ∀ entries : List Entry, base <+: entries →
      base <+: positions.foldl (fun entries position => entries.set position row) entries := by
    induction positions with
    | nil => exact fun entries same => same
    | cons position rest inductionHypothesis =>
        intro entries same
        rw [List.forall_mem_cons] at above
        apply inductionHypothesis above.2
        obtain ⟨behind, rfl⟩ := same
        have behindBase := List.set_append_right position row above.1 (t := behind)
        exact ⟨_, behindBase.symm⟩
  exact kept log.entries below

end UndoLog

end KairosEngine.Library
