import Mathlib.Logic.Function.Basic

/-!
# Two tables that are inverse to each other

A directory maps keys to slots, and a second table names the owner of each slot.
-/

namespace KairosEngine.Library

universe u v

variable {Key : Type u} {Slot : Type v}

/-- A key is mapped to a slot exactly when it owns the slot. -/
def Inverse (map : Key → Option Slot) (owner : Slot → Option Key) : Prop :=
  ∀ key slot, map key = some slot ↔ owner slot = some key

/-- The map without the owner of a slot. -/
def unmapOwner [DecidableEq Key] (map : Key → Option Slot) (owner : Slot → Option Key)
    (slot : Slot) : Key → Option Slot :=
  match owner slot with
  | some old => Function.update map old none
  | none => map

variable {map : Key → Option Slot} {owner : Slot → Option Key} {slot : Slot}

theorem Inverse.empty : Inverse (fun _ : Key => (none : Option Slot)) fun _ => none := by
  intro key slot
  constructor
  · intro impossible
    cases impossible
  · intro impossible
    cases impossible

theorem Inverse.injective (inverse : Inverse map owner) {first second : Slot} {key : Key}
    (atFirst : owner first = some key) (atSecond : owner second = some key) : first = second := by
  have mapped := (inverse key first).mpr atFirst
  rw [(inverse key second).mpr atSecond, Option.some.injEq] at mapped
  exact mapped.symm

variable [DecidableEq Key]

theorem unmapOwner_of_ne (inverse : Inverse map owner) {other : Slot} (away : other ≠ slot)
    (key : Key) : unmapOwner map owner slot key = some other ↔ owner other = some key := by
  unfold unmapOwner
  cases known : owner slot with
  | none => exact inverse key other
  | some old =>
      by_cases same : key = old
      · subst same
        constructor
        · intro impossible
          simp only [Function.update_self, reduceCtorEq] at impossible
        · intro owned
          exact absurd (inverse.injective owned known) away
      · simp only [Function.update_of_ne same]
        exact inverse key other

theorem unmapOwner_of_unmapped {key : Key} (absent : map key = none) :
    unmapOwner map owner slot key = none := by
  unfold unmapOwner
  cases owner slot with
  | none => exact absent
  | some old =>
      by_cases same : key = old
      · subst same
        exact Function.update_self ..
      · exact (Function.update_of_ne same ..).trans absent

theorem unmapOwner_self (inverse : Inverse map owner) (key : Key) :
    unmapOwner map owner slot key ≠ some slot := by
  unfold unmapOwner
  cases known : owner slot with
  | none =>
      intro mapped
      rw [(inverse key slot).mp mapped] at known
      cases known
  | some old =>
      by_cases same : key = old
      · subst same
        simp only [Function.update_self]
        nofun
      · simp only [Function.update_of_ne same]
        intro mapped
        rw [(inverse key slot).mp mapped, Option.some.injEq] at known
        exact same known

/-- Forgetting the owner as well keeps the tables inverse. -/
theorem Inverse.evict [DecidableEq Slot] (inverse : Inverse map owner) :
    Inverse (unmapOwner map owner slot) (Function.update owner slot none) := by
  intro key other
  by_cases here : other = slot
  · subst here
    simp only [Function.update_self, reduceCtorEq, iff_false]
    exact unmapOwner_self inverse key
  · rw [Function.update_of_ne here]
    exact unmapOwner_of_ne inverse here key

/-- A key that is not mapped may take the slot over. -/
theorem Inverse.replace [DecidableEq Slot] (inverse : Inverse map owner) {key : Key}
    (absent : map key = none) :
    Inverse (Function.update (unmapOwner map owner slot) key (some slot))
      (Function.update owner slot (some key)) := by
  intro other place
  by_cases here : place = slot
  · subst here
    by_cases same : other = key
    · subst same
      simp only [Function.update_self]
    · simp only [Function.update_self, Function.update_of_ne same, Option.some.injEq,
        Ne.symm same, iff_false]
      exact unmapOwner_self inverse other
  · by_cases same : other = key
    · subst same
      simp only [Function.update_self, Function.update_of_ne here, Option.some.injEq,
        Ne.symm here, false_iff]
      intro owned
      rw [(inverse other place).mpr owned] at absent
      cases absent
    · rw [Function.update_of_ne here, Function.update_of_ne same]
      exact unmapOwner_of_ne inverse here other

/-- The map alone forgets an owner only where the slot had none. -/
theorem Inverse.unmap_iff (inverse : Inverse map owner) :
    Inverse (unmapOwner map owner slot) owner ↔ owner slot = none := by
  constructor
  · intro still
    by_contra owned
    obtain ⟨key, known⟩ := Option.ne_none_iff_exists'.mp owned
    exact unmapOwner_self inverse key ((still key slot).mpr known)
  · intro empty
    unfold unmapOwner
    rw [empty]
    exact inverse

end KairosEngine.Library
