import Mathlib.Data.List.Basic

/-!
# Pools of tasks

A list of tasks of which one moves at a time: what such a move does to existence, universal
facts and counts.
-/

namespace KairosEngine.Library

universe u

variable {Task : Type u} {tasks : List Task} {index : Nat} {move : Task → Task}

theorem mem_modify_cases {moved : Task} (member : moved ∈ tasks.modify index move) :
    moved ∈ tasks ∨ ∃ task, tasks[index]? = some task ∧ moved = move task := by
  obtain ⟨position, found⟩ := List.mem_iff_getElem?.mp member
  by_cases here : index = position
  · subst here
    rw [List.getElem?_modify_eq] at found
    obtain ⟨task, present, rfl⟩ := Option.map_eq_some_iff.mp found
    exact Or.inr ⟨task, present, rfl⟩
  · rw [List.getElem?_modify_ne move tasks here] at found
    exact Or.inl (List.mem_iff_getElem?.mpr ⟨position, found⟩)

theorem mem_modify_of_mem {task : Task} (member : task ∈ tasks) :
    task ∈ tasks.modify index move ∨
      tasks[index]? = some task ∧ move task ∈ tasks.modify index move := by
  obtain ⟨position, found⟩ := List.mem_iff_getElem?.mp member
  by_cases here : index = position
  · subst here
    refine Or.inr ⟨found, List.mem_iff_getElem?.mpr ⟨index, ?_⟩⟩
    rw [List.getElem?_modify_eq, found]
    rfl
  · refine Or.inl (List.mem_iff_getElem?.mpr ⟨position, ?_⟩)
    rw [List.getElem?_modify_ne move tasks here]
    exact found

theorem exists_mem_modify {before after : Task → Prop}
    (carried : ∀ task, tasks[index]? = some task → before task → after (move task))
    (kept : ∀ task, before task → after task) (found : ∃ task ∈ tasks, before task) :
    ∃ task ∈ tasks.modify index move, after task := by
  obtain ⟨task, member, holds⟩ := found
  rcases @mem_modify_of_mem _ _ index move _ member with stays | ⟨here, moved⟩
  · exact ⟨task, stays, kept task holds⟩
  · exact ⟨move task, moved, carried task here holds⟩

theorem forall_mem_modify {before after : Task → Prop}
    (carried : ∀ task, tasks[index]? = some task → before task → after (move task))
    (kept : ∀ task, before task → after task) (all : ∀ task ∈ tasks, before task) :
    ∀ task ∈ tasks.modify index move, after task := by
  intro moved member
  rcases mem_modify_cases member with stays | ⟨task, here, rfl⟩
  · exact kept moved (all moved stays)
  · exact carried task here (all task (List.mem_of_getElem? here))

/-- The balance of a move: what it takes from a count and what it adds. -/
theorem countP_modify {task : Task} (counted : Task → Bool) (found : tasks[index]? = some task) :
    (tasks.modify index move).countP counted + (counted task).toNat =
      tasks.countP counted + (counted (move task)).toNat := by
  induction tasks generalizing index with
  | nil => simp at found
  | cons head rest inductionHypothesis =>
      cases index with
      | zero =>
          obtain rfl : head = task := by simpa using found
          cases before : counted head <;> cases after : counted (move head) <;>
            simp [before, after]
      | succ index =>
          have later : rest[index]? = some task := by simpa using found
          have step := inductionHypothesis later
          simp only [List.modify_succ_cons, List.countP_cons]
          omega

end KairosEngine.Library
