import Mathlib.Data.List.Basic
import Mathlib.Logic.Function.Basic

/-!
# Block stores and flat streams

A flat stream is a byte array that grows with its writes.  A block store keeps what was written
as whole blocks under keys that stand for positions of the stream.
-/

namespace KairosEngine.Library

universe u v

variable {Key : Type u} {Byte : Type v}

/-- The cells of a flat stream; a cell is empty until it is written. -/
abbrev Cells (Byte : Type v) := Nat → Option Byte

def Cells.write (offset : Nat) (bytes : List Byte) (cells : Cells Byte) : Cells Byte :=
  fun position =>
    if offset ≤ position ∧ position < offset + bytes.length then bytes[position - offset]?
    else cells position

/-- The cells from the offset on are these bytes. -/
def Cells.Holds (cells : Cells Byte) (offset : Nat) (bytes : List Byte) : Prop :=
  ∀ index < bytes.length, cells (offset + index) = bytes[index]?

/-- Every cell of the range has been written. -/
def Cells.Covers (cells : Cells Byte) (offset length : Nat) : Prop :=
  ∀ index < length, (cells (offset + index)).isSome = true

instance (cells : Cells Byte) (offset length : Nat) : Decidable (cells.Covers offset length) :=
  inferInstanceAs (Decidable (∀ index < length, (cells (offset + index)).isSome = true))

/-- The position lies in the block. -/
def Within (start : Nat) (block : List Byte) (position : Nat) : Prop :=
  start ≤ position ∧ position < start + block.length

variable (place : Key → Nat)

/-- The stored blocks cover the range. -/
def BlocksCover (blocks : Key → Option (List Byte)) (offset length : Nat) : Prop :=
  ∀ index < length, ∃ key block, blocks key = some block ∧
    Within (place key) block (offset + index)

/-- Every block is what the stream holds, and every written cell lies in a block. -/
structure Mirrors (blocks : Key → Option (List Byte)) (cells : Cells Byte) : Prop where
  current : ∀ key block, blocks key = some block → cells.Holds (place key) block
  complete : ∀ position, (cells position).isSome = true →
    ∃ key block, blocks key = some block ∧ Within (place key) block position

/-- A block replaces one that is not longer and meets no block under another key. -/
def Replaces (blocks : Key → Option (List Byte)) (key : Key) (bytes : List Byte) : Prop :=
  (∀ block, blocks key = some block → block.length ≤ bytes.length) ∧
    ∀ other block, other ≠ key → blocks other = some block →
      ∀ position, Within (place other) block position → ¬ Within (place key) bytes position

variable {place} {blocks : Key → Option (List Byte)} {cells : Cells Byte}

theorem Cells.write_outside {offset : Nat} {bytes : List Byte} {position : Nat}
    (outside : ¬ Within offset bytes position) :
    cells.write offset bytes position = cells position := if_neg outside

theorem Cells.write_holds (offset : Nat) (bytes : List Byte) :
    (cells.write offset bytes).Holds offset bytes := by
  intro index inside
  rw [Cells.write, if_pos ⟨Nat.le_add_right _ _, Nat.add_lt_add_left inside _⟩,
    Nat.add_sub_cancel_left]

theorem Mirrors.empty : Mirrors place (fun _ => none) (fun _ => (none : Option Byte)) where
  current _ _ stored := nomatch stored
  complete _ written := nomatch written

theorem Mirrors.covers_iff (mirrors : Mirrors place blocks cells) (offset length : Nat) :
    cells.Covers offset length ↔ BlocksCover place blocks offset length := by
  constructor
  · intro covers index inside
    exact mirrors.complete _ (covers index inside)
  · intro covers index inside
    obtain ⟨key, block, stored, lower, upper⟩ := covers index inside
    have within : offset + index - place key < block.length := by omega
    have held := mirrors.current key block stored _ within
    rw [show place key + (offset + index - place key) = offset + index by omega] at held
    rw [held, List.getElem?_eq_getElem within, Option.isSome_some]

theorem Mirrors.write [DecidableEq Key] (mirrors : Mirrors place blocks cells) {key : Key}
    {bytes : List Byte} (replaces : Replaces place blocks key bytes) :
    Mirrors place (Function.update blocks key (some bytes))
      (cells.write (place key) bytes) where
  current other block stored := by
    by_cases same : other = key
    · subst same
      rw [Function.update_self, Option.some.injEq] at stored
      subst stored
      exact Cells.write_holds _ _
    · rw [Function.update_of_ne same] at stored
      intro index inside
      have here : Within (place other) block (place other + index) :=
        ⟨Nat.le_add_right _ _, Nat.add_lt_add_left inside _⟩
      rw [Cells.write_outside (replaces.2 other block same stored _ here)]
      exact mirrors.current other block stored index inside
  complete position written := by
    by_cases inside : Within (place key) bytes position
    · exact ⟨key, bytes, Function.update_self _ _ _, inside⟩
    · rw [Cells.write_outside inside] at written
      obtain ⟨other, block, stored, within⟩ := mirrors.complete position written
      have apart : other ≠ key := by
        rintro rfl
        have longer := replaces.1 block stored
        exact inside ⟨within.1, Nat.lt_of_lt_of_le within.2 (Nat.add_le_add_left longer _)⟩
      exact ⟨other, block, by rwa [Function.update_of_ne apart], within⟩

end KairosEngine.Library
