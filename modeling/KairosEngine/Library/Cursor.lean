import Mathlib.Data.List.Basic

/-!
# Readers that keep to a region

A cursor moves through a region of known size in modular arithmetic and logs what it reads.  A move
is refused where it would end behind the region.  While no sum reaches the modulus, what a move
allows lies in the region.
-/

namespace KairosEngine.Library

/-- Where a reader stands, and what it has read: first byte and length. -/
structure Cursor where
  pos : Nat
  reads : List (Nat × Nat)
  deriving DecidableEq

namespace Cursor

/-- Move on by a length, unless the sum is behind the region. -/
def advance (modulus size len : Nat) (cursor : Cursor) : Option Cursor :=
  if size < (cursor.pos + len) % modulus then none
  else some { cursor with pos := (cursor.pos + len) % modulus }

def read (cursor : Cursor) (spans : List (Nat × Nat)) : Cursor :=
  { cursor with reads := cursor.reads ++ spans }

/-- Neither the cursor nor anything it has read is behind the region. -/
structure Within (size : Nat) (cursor : Cursor) : Prop where
  pos_le : cursor.pos ≤ size
  reads_le : ∀ span ∈ cursor.reads, span.1 + span.2 ≤ size

/-- An invariant of readers whose moves are below a limit; a move says of the bytes it passes that
they are fit to be read. -/
structure Kept (modulus size limit : Nat) (Invariant : Cursor → Prop) (Fit : Nat × Nat → Prop) :
    Prop where
  advance : ∀ cursor len moved, len < limit → Invariant cursor →
    cursor.advance modulus size len = some moved → Invariant moved ∧ Fit (cursor.pos, len)
  read : ∀ cursor spans, Invariant cursor → (∀ span ∈ spans, Fit span) →
    Invariant (cursor.read spans)

variable {modulus size limit : Nat}

theorem within_start : Within size ⟨0, []⟩ := ⟨Nat.zero_le _, nofun⟩

/-- Without a wrap a reader stays in its region. -/
theorem within_kept (noWrap : size + limit ≤ modulus) :
    Kept modulus size limit (Within size) fun span => span.1 + span.2 ≤ size := by
  constructor
  · intro cursor len moved below within step
    have exact : (cursor.pos + len) % modulus = cursor.pos + len := by
      have start := within.pos_le
      exact Nat.mod_eq_of_lt (by omega)
    unfold Cursor.advance at step
    rw [exact] at step
    split at step
    next => cases step
    next inside =>
      cases step
      exact ⟨⟨Nat.not_lt.mp inside, within.reads_le⟩, Nat.not_lt.mp inside⟩
  · intro cursor spans within fit
    refine ⟨within.pos_le, ?_⟩
    intro span member
    rcases List.mem_append.mp member with old | new
    · exact within.reads_le span old
    · exact fit span new

/-- What was read stays read. -/
theorem mem_kept (span : Nat × Nat) :
    Kept modulus size limit (fun cursor => span ∈ cursor.reads) fun _ => True := by
  constructor
  · intro cursor len moved _ member step
    unfold Cursor.advance at step
    split at step
    next => cases step
    next =>
      cases step
      exact ⟨member, trivial⟩
  · intro cursor spans member _
    exact List.mem_append_left spans member

end Cursor

end KairosEngine.Library
