import Mathlib.Data.List.Basic
import Mathlib.Logic.Function.Basic

/-!
# Writes that land in any order

Threads leave values at addresses of a memory.  Where those that write to one address write the same
value, the order in which the writes land does not matter.  Neither does the order of additions to
different addresses.
-/

namespace KairosEngine.Library

universe u

variable {Value : Type u}

/-- The memory after these writes. -/
def scatter (memory : Nat → Value) (writes : List (Nat × Value)) : Nat → Value :=
  writes.foldl (fun memory write => Function.update memory write.1 write.2) memory

variable {memory : Nat → Value} {writes : List (Nat × Value)} {address : Nat} {value : Value}

theorem scatter_cons (write : Nat × Value) :
    scatter memory (write :: writes) = scatter (Function.update memory write.1 write.2) writes := rfl

theorem scatter_of_notMem (untouched : address ∉ writes.map Prod.fst) :
    scatter memory writes address = memory address := by
  induction writes generalizing memory with
  | nil => rfl
  | cons write rest inductionHypothesis =>
      rw [List.map_cons, List.mem_cons, not_or] at untouched
      rw [scatter_cons, inductionHypothesis untouched.2, Function.update_of_ne untouched.1]

theorem scatter_of_agree (written : (address, value) ∈ writes)
    (agree : ∀ other, (address, other) ∈ writes → other = value) :
    scatter memory writes address = value := by
  induction writes generalizing memory with
  | nil => cases written
  | cons write rest inductionHypothesis =>
      rw [scatter_cons]
      by_cases later : ∃ other, (address, other) ∈ rest
      · obtain ⟨other, member⟩ := later
        have same := agree other (List.mem_cons_of_mem _ member)
        subst same
        exact inductionHypothesis member
          fun another found => agree another (List.mem_cons_of_mem _ found)
      · rcases List.mem_cons.mp written with rfl | member
        · rw [scatter_of_notMem, Function.update_self]
          intro found
          obtain ⟨⟨place, other⟩, member, rfl⟩ := List.mem_map.mp found
          exact later ⟨other, member⟩
        · exact absurd ⟨value, member⟩ later

/-- No two writes go to one address, so each is what the memory holds there in the end. -/
theorem scatter_of_perm {order : List (Nat × Value)} (landed : order.Perm writes)
    (written : (address, value) ∈ writes)
    (agree : ∀ other, (address, other) ∈ writes → other = value) :
    scatter memory order address = value :=
  scatter_of_agree (landed.mem_iff.mpr written) fun other found =>
    agree other (landed.mem_iff.mp found)

/-- The writes landed, in some order. -/
def Landed (memory : Nat → Value) (writes : List (Nat × Value)) (after : Nat → Value) : Prop :=
  ∃ order, order.Perm writes ∧ after = scatter memory order

theorem Landed.get {after : Nat → Value} (landed : Landed memory writes after)
    (written : (address, value) ∈ writes)
    (agree : ∀ other, (address, other) ∈ writes → other = value) : after address = value := by
  obtain ⟨order, shuffled, rfl⟩ := landed
  exact scatter_of_perm shuffled written agree

theorem Landed.untouched {after : Nat → Value} (landed : Landed memory writes after)
    (absent : ∀ value, (address, value) ∉ writes) : after address = memory address := by
  obtain ⟨order, shuffled, rfl⟩ := landed
  apply scatter_of_notMem
  intro member
  obtain ⟨⟨place, value⟩, found, rfl⟩ := List.mem_map.mp member
  exact absent value (shuffled.mem_iff.mp found)

/-- In program order they land too. -/
theorem landed_scatter : Landed memory writes (scatter memory writes) := ⟨writes, List.Perm.refl _, rfl⟩

/-! ## Additions -/

section Additions

variable {add : Value → Value → Value} {adds : List (Nat × Value)}

/-- The memory after these `atomicAdd`s. -/
def addAll (add : Value → Value → Value) (memory : Nat → Value) (adds : List (Nat × Value)) :
    Nat → Value :=
  adds.foldl (fun memory entry => Function.update memory entry.1 (add (memory entry.1) entry.2))
    memory

theorem addAll_cons (entry : Nat × Value) :
    addAll add memory (entry :: adds) =
      addAll add (Function.update memory entry.1 (add (memory entry.1) entry.2)) adds := rfl

theorem addAll_of_notMem (untouched : address ∉ adds.map Prod.fst) :
    addAll add memory adds address = memory address := by
  induction adds generalizing memory with
  | nil => rfl
  | cons entry rest inductionHypothesis =>
      rw [List.map_cons, List.mem_cons, not_or] at untouched
      rw [addAll_cons, inductionHypothesis untouched.2, Function.update_of_ne untouched.1]

theorem addAll_of_mem (distinct : (adds.map Prod.fst).Nodup) (member : (address, value) ∈ adds) :
    addAll add memory adds address = add (memory address) value := by
  induction adds generalizing memory with
  | nil => cases member
  | cons entry rest inductionHypothesis =>
      rw [List.map_cons, List.nodup_cons] at distinct
      rw [addAll_cons]
      rcases List.mem_cons.mp member with rfl | later
      · rw [addAll_of_notMem distinct.1, Function.update_self]
      · rw [inductionHypothesis distinct.2 later, Function.update_of_ne]
        rintro rfl
        exact distinct.1 (List.mem_map.mpr ⟨_, later, rfl⟩)

/-- The additions landed, in some order. -/
def Added (add : Value → Value → Value) (memory : Nat → Value) (adds : List (Nat × Value))
    (after : Nat → Value) : Prop :=
  ∃ order, order.Perm adds ∧ after = addAll add memory order

theorem Added.get {after : Nat → Value} (added : Added add memory adds after)
    (distinct : (adds.map Prod.fst).Nodup) (member : (address, value) ∈ adds) :
    after address = add (memory address) value := by
  obtain ⟨order, shuffled, rfl⟩ := added
  exact addAll_of_mem ((shuffled.map Prod.fst).nodup_iff.mpr distinct) (shuffled.mem_iff.mpr member)

theorem Added.untouched {after : Nat → Value} (added : Added add memory adds after)
    (absent : address ∉ adds.map Prod.fst) : after address = memory address := by
  obtain ⟨order, shuffled, rfl⟩ := added
  exact addAll_of_notMem fun member => absent ((shuffled.map Prod.fst).mem_iff.mp member)

theorem added_addAll : Added add memory adds (addAll add memory adds) :=
  ⟨adds, List.Perm.refl _, rfl⟩

end Additions

/-! ## Rows -/

/-- Rows of one width lie behind each other. -/
theorem row_lt {width row column rows : Nat} (inside : row < rows) (below : column < width) :
    row * width + column < rows * width := by
  calc row * width + column < row * width + width := Nat.add_lt_add_left below _
    _ = (row + 1) * width := (Nat.succ_mul row width).symm
    _ ≤ rows * width := Nat.mul_le_mul_right width inside

theorem row_div {width row column : Nat} (inside : column < width) :
    (row * width + column) / width = row ∧ (row * width + column) % width = column := by
  rw [Nat.mul_comm, Nat.mul_add_div (Nat.zero_lt_of_lt inside), Nat.div_eq_of_lt inside,
    Nat.mul_add_mod, Nat.mod_eq_of_lt inside]
  exact ⟨Nat.add_zero row, rfl⟩

theorem split_place {stride t u i k : Nat} (small : i < stride) (below : k < stride)
    (same : t * stride + i = u * stride + k) : t = u ∧ i = k := by
  obtain ⟨row, column⟩ := @row_div stride t i small
  rw [same] at row column
  exact ⟨row.symm.trans (row_div below).1, column.symm.trans (row_div below).2⟩

end KairosEngine.Library
