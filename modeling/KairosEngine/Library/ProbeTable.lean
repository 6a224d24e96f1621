import Mathlib.Algebra.Group.Nat.Defs
import Mathlib.Data.List.Basic
import Mathlib.Order.Nat

/-!
# Open addressing with linear probing

A key goes into the first free slot from its home on, around the end of the table, and the first
value put for it stays.  While a slot is free, a search ends, and it finds what a list of the puts
holds.
-/

namespace KairosEngine.Library

universe u v w

/-- What a slot holds, and where the search for a key starts. -/
structure Probing (Slot : Type u) (Key : Type v) (Value : Type w) where
  content : Slot → Option (Key × Value)
  home : Key → Nat

namespace Probing

variable {Slot : Type u} {Key : Type v} {Value : Type w} (probing : Probing Slot Key Value)

/-- The content of the slot at a position, which goes around the table. -/
def contentAt (slots : List Slot) (position : Nat) : Option (Key × Value) :=
  slots[position % slots.length]?.bind probing.content

/-- Another key is here. -/
def Blocks (slots : List Slot) (key : Key) (position : Nat) : Prop :=
  ∃ held value, probing.contentAt slots position = some (held, value) ∧ held ≠ key

variable {probing} {slots : List Slot} {key : Key} {position fuel : Nat}

theorem contentAt_congr {position other : Nat}
    (same : position % slots.length = other % slots.length) :
    probing.contentAt slots position = probing.contentAt slots other := by
  rw [contentAt, contentAt, same]

theorem contentAt_set {slot : Slot} {found position : Nat} (inside : 0 < slots.length) :
    probing.contentAt (slots.set (found % slots.length) slot) position =
      if found % slots.length = position % slots.length then probing.content slot
      else probing.contentAt slots position := by
  have within := Nat.mod_lt found inside
  rw [contentAt, contentAt, List.length_set]
  split
  next same => rw [← same, List.getElem?_set_self within, Option.bind_some]
  next different => rw [List.getElem?_set_ne different]

/-- Filling a free slot hides nothing that was in the way. -/
theorem Blocks.set {slot : Slot} {found : Nat} (blocks : probing.Blocks slots key position)
    (inside : 0 < slots.length) (free : probing.contentAt slots found = none) :
    probing.Blocks (slots.set (found % slots.length) slot) key position := by
  obtain ⟨held, value, here, different⟩ := blocks
  refine ⟨held, value, ?_, different⟩
  rw [contentAt_set inside, if_neg, here]
  intro same
  rw [← contentAt_congr same, free] at here
  cases here

theorem not_blocks_iff :
    ¬ probing.Blocks slots key position ↔
      probing.contentAt slots position = none ∨ ∃ value, probing.contentAt slots position = some (key, value) := by
  cases held : probing.contentAt slots position with
  | none =>
      constructor
      · exact fun _ => Or.inl rfl
      · rintro _ ⟨other, value, here, _⟩
        rw [held] at here
        cases here
  | some entry =>
      obtain ⟨other, value⟩ := entry
      constructor
      · intro free
        refine Or.inr ⟨value, ?_⟩
        by_cases same : other = key
        · rw [same]
        · exact absurd ⟨other, value, held, same⟩ free
      · rintro (absent | ⟨found, here⟩) ⟨blocker, _, there, different⟩
        · cases absent
        · cases here
          rw [held] at there
          cases there
          exact different rfl

/-! ## Searches -/

variable (probing) [BEq Key]

/-- The position of a key or of the free slot for it. -/
def seek (slots : List Slot) (key : Key) : Nat → Nat → Option Nat
  | 0, _ => none
  | fuel + 1, position =>
      match probing.contentAt slots position with
      | none => some position
      | some (held, _) => if held == key then some position else seek slots key fuel (position + 1)

/-- The search with indices that a mask keeps in the table. -/
def walk (slots : List Slot) (mask : Nat) (key : Key) : Nat → Nat → Option Nat
  | 0, _ => none
  | fuel + 1, index =>
      match slots[index]?.bind probing.content with
      | none => some index
      | some (held, _) =>
          if held == key then some index else walk slots mask key fuel (index + 1 &&& mask)

variable {probing}

theorem walk_eq_seek {bits : Nat} (power : slots.length = 2 ^ bits) :
    probing.walk slots (slots.length - 1) key fuel (position % slots.length) =
      (probing.seek slots key fuel position).map (· % slots.length) := by
  induction fuel generalizing position with
  | zero => rfl
  | succ fuel inductionHypothesis =>
      rw [walk, seek, ← contentAt]
      cases probing.contentAt slots position with
      | none => rfl
      | some entry =>
          dsimp only
          split
          next => rfl
          next =>
            rw [← inductionHypothesis]
            congr 1
            rw [power, Nat.and_two_pow_sub_one_eq_mod, Nat.mod_add_mod]

variable [LawfulBEq Key]

/-- A search stops at the first position where no other key is. -/
theorem seek_eq_some_iff {found : Nat} :
    probing.seek slots key fuel position = some found ↔
      ∃ distance < fuel, found = position + distance ∧ ¬ probing.Blocks slots key found ∧
        ∀ earlier < distance, probing.Blocks slots key (position + earlier) := by
  induction fuel generalizing position with
  | zero =>
      constructor
      · intro none
        cases none
      · rintro ⟨_, below, _⟩
        omega
  | succ fuel inductionHypothesis =>
      have stops : ¬ probing.Blocks slots key position →
          (some position = some found ↔
            ∃ distance < fuel + 1, found = position + distance ∧ ¬ probing.Blocks slots key found ∧
              ∀ earlier < distance, probing.Blocks slots key (position + earlier)) := by
        intro free
        constructor
        · intro same
          cases same
          exact ⟨0, Nat.succ_pos fuel, rfl, free, fun _ below => absurd below (Nat.not_lt_zero _)⟩
        · rintro ⟨distance, _, rfl, _, blocked⟩
          cases distance with
          | zero => rfl
          | succ distance => exact absurd (blocked 0 (Nat.succ_pos distance)) free
      rw [seek]
      cases held : probing.contentAt slots position with
      | none => exact stops (not_blocks_iff.mpr (Or.inl held))
      | some entry =>
          obtain ⟨other, value⟩ := entry
          by_cases same : other = key
          · subst same
            simp only [beq_self_eq_true, if_true]
            exact stops (not_blocks_iff.mpr (Or.inr ⟨value, held⟩))
          · have blocked : probing.Blocks slots key position := ⟨other, value, held, same⟩
            simp only [beq_false_of_ne same, Bool.false_eq_true, if_false]
            rw [inductionHypothesis]
            constructor
            · rintro ⟨distance, below, rfl, free, before⟩
              refine ⟨distance + 1, Nat.succ_lt_succ below, by omega, free, ?_⟩
              intro earlier within
              cases earlier with
              | zero => exact blocked
              | succ earlier =>
                  rw [← Nat.add_assoc, Nat.add_right_comm]
                  exact before earlier (Nat.lt_of_succ_lt_succ within)
            · rintro ⟨distance, below, rfl, free, before⟩
              cases distance with
              | zero => exact absurd blocked free
              | succ distance =>
                  refine ⟨distance, Nat.lt_of_succ_lt_succ below, by omega, free, ?_⟩
                  intro earlier within
                  have ahead := before (earlier + 1) (Nat.succ_lt_succ within)
                  rwa [← Nat.add_assoc, Nat.add_right_comm] at ahead

theorem seek_isSome (free : ∃ distance < fuel, ¬ probing.Blocks slots key (position + distance)) :
    ∃ found, probing.seek slots key fuel position = some found := by
  classical
  obtain ⟨below, clear⟩ := Nat.find_spec free
  refine ⟨position + Nat.find free, seek_eq_some_iff.mpr ⟨_, below, rfl, clear, ?_⟩⟩
  intro earlier within
  by_contra other
  exact Nat.find_min free within ⟨by omega, other⟩

/-- Once around the table a search has seen every slot. -/
theorem exists_distance (slots : List Slot) {slot : Nat} (inside : slot < slots.length)
    (start : Nat) : ∃ distance < slots.length, (start + distance) % slots.length = slot := by
  have positive : 0 < slots.length := Nat.zero_lt_of_lt inside
  have below := Nat.mod_lt start positive
  by_cases ahead : start % slots.length ≤ slot
  · refine ⟨slot - start % slots.length, by omega, ?_⟩
    rw [Nat.add_mod, Nat.mod_eq_of_lt (a := slot - start % slots.length) (by omega)]
    rw [Nat.add_sub_cancel' ahead, Nat.mod_eq_of_lt inside]
  · refine ⟨slot + slots.length - start % slots.length, by omega, ?_⟩
    rw [Nat.add_mod, Nat.mod_eq_of_lt (a := slot + slots.length - start % slots.length) (by omega)]
    rw [show start % slots.length + (slot + slots.length - start % slots.length) =
      slot + slots.length by omega, Nat.add_mod_right, Nat.mod_eq_of_lt inside]

/-! ## What the puts leave behind -/

variable (probing) in
/-- Slots that hold these puts. -/
structure Holds (slots : List Slot) (puts : List (Key × Value)) : Prop where
  /-- A slot is free as long as there were fewer puts than slots. -/
  few : slots.countP (fun slot => (probing.content slot).isSome) ≤ puts.length
  /-- Between the home of a key and its slot are other keys. -/
  reached : ∀ {position key value}, probing.contentAt slots position = some (key, value) →
    ∃ distance, (probing.home key + distance) % slots.length = position % slots.length ∧
      ∀ earlier < distance, probing.Blocks slots key (probing.home key + earlier)
  /-- The first put of a key is in the table, and nothing else. -/
  holds : ∀ {key value}, (∃ position, probing.contentAt slots position = some (key, value)) ↔
    puts.lookup key = some value

variable {puts : List (Key × Value)}

omit [LawfulBEq Key] in
theorem holds_free (free : ∀ slot ∈ slots, probing.content slot = none) :
    probing.Holds slots [] := by
  have empty : ∀ position, probing.contentAt slots position = none := by
    intro position
    cases found : slots[position % slots.length]? with
    | none => rw [contentAt, found, Option.bind_none]
    | some slot => rw [contentAt, found, Option.bind_some, free _ (List.mem_of_getElem? found)]
  refine ⟨?_, ?_, ?_⟩
  · rw [List.countP_eq_zero.mpr]
    · exact Nat.le_refl 0
    · intro slot member
      rw [free slot member]
      exact Bool.false_ne_true
  · intro position key value held
    rw [empty] at held
    cases held
  · intro key value
    constructor
    · rintro ⟨position, held⟩
      rw [empty] at held
      cases held
    · intro none
      cases none

omit [LawfulBEq Key] in
theorem Holds.exists_free (holds : probing.Holds slots puts) (room : puts.length < slots.length) :
    ∃ slot < slots.length, probing.contentAt slots slot = none := by
  by_contra full
  refine absurd (List.countP_eq_length.mpr ?_) (Nat.ne_of_lt (Nat.lt_of_le_of_lt holds.few room))
  intro slot member
  obtain ⟨index, inside, rfl⟩ := List.mem_iff_getElem.mp member
  cases held : probing.content slots[index] with
  | some _ => rfl
  | none =>
      refine absurd ⟨index, inside, ?_⟩ full
      rw [contentAt, Nat.mod_eq_of_lt inside, List.getElem?_eq_getElem inside, Option.bind_some, held]

/-- With a slot to spare every search ends. -/
theorem Holds.seek_isSome (holds : probing.Holds slots puts) (room : puts.length < slots.length)
    (enough : slots.length ≤ fuel) (key : Key) (position : Nat) :
    ∃ found, probing.seek slots key fuel position = some found := by
  obtain ⟨slot, inside, free⟩ := holds.exists_free room
  obtain ⟨distance, below, there⟩ := exists_distance slots inside position
  refine Probing.seek_isSome ⟨distance, by omega, not_blocks_iff.mpr (Or.inl ?_)⟩
  rw [← free]
  apply contentAt_congr
  rw [there, Nat.mod_eq_of_lt inside]

/-- A search that ends at a free slot is for a key that is nowhere. -/
theorem Holds.absent (holds : probing.Holds slots puts) {found : Nat}
    (sought : probing.seek slots key fuel (probing.home key) = some found)
    (free : probing.contentAt slots found = none) : puts.lookup key = none := by
  cases put : puts.lookup key with
  | none => rfl
  | some value =>
      obtain ⟨distance, _, rfl, _, before⟩ := seek_eq_some_iff.mp sought
      obtain ⟨position, held⟩ := holds.holds.mpr put
      obtain ⟨far, there, blocked⟩ := holds.reached held
      have here : probing.contentAt slots (probing.home key + far) = some (key, value) := by
        rw [contentAt_congr there, held]
      rcases Nat.lt_trichotomy far distance with nearer | rfl | further
      · exact absurd (before far nearer) (not_blocks_iff.mpr (Or.inr ⟨value, here⟩))
      · rw [free] at here
        cases here
      · exact absurd (blocked distance further) (not_blocks_iff.mpr (Or.inl free))

/-! ## Tables -/

end Probing

/-- The slots, and the mask that keeps an index inside them. -/
structure ProbeTable (Slot : Type u) where
  slots : List Slot
  mask : Nat

namespace ProbeTable

open Probing

variable {Slot : Type u} {Key : Type v} {Value : Type w} [BEq Key]
variable (probing : Probing Slot Key Value)

/-- Where the search for a key stops; nothing at all is a search that has not ended. -/
def stop (table : ProbeTable Slot) (fuel : Nat) (key : Key) : Option Nat :=
  probing.walk table.slots table.mask key fuel (probing.home key &&& table.mask)

def find (table : ProbeTable Slot) (fuel : Nat) (key : Key) : Option (Option Value) :=
  (table.stop probing fuel key).map fun index =>
    (table.slots[index]?.bind probing.content).map Prod.snd

/-- A slot for a key, put unless the key has one. -/
def put (table : ProbeTable Slot) (fuel : Nat) (key : Key) (slot : Slot) :
    Option (ProbeTable Slot) :=
  (table.stop probing fuel key).map fun index =>
    if (table.slots[index]?.bind probing.content).isSome then table
    else { table with slots := table.slots.set index slot }

/-- Slots for keys, put one after the other. -/
def putAll (fuel : Nat) (table : ProbeTable Slot) : List (Key × Slot) → Option (ProbeTable Slot)
  | [] => some table
  | (key, slot) :: rest =>
      (table.put probing fuel key slot).bind fun filled => putAll fuel filled rest

variable {probing}

/-- A table of a power of two of slots that holds these puts. -/
structure Represents (probing : Probing Slot Key Value) (table : ProbeTable Slot)
    (puts : List (Key × Value)) : Prop where
  power : ∃ bits, table.slots.length = 2 ^ bits
  mask_eq : table.mask = table.slots.length - 1
  holds : probing.Holds table.slots puts

variable {table : ProbeTable Slot} {puts : List (Key × Value)} {fuel : Nat} {key : Key}

theorem Represents.stop_eq (represents : Represents probing table puts) :
    table.stop probing fuel key =
      (probing.seek table.slots key fuel (probing.home key)).map (· % table.slots.length) := by
  obtain ⟨bits, power⟩ := represents.power
  rw [← walk_eq_seek power, stop, represents.mask_eq]
  congr 1
  rw [power, Nat.and_two_pow_sub_one_eq_mod]

variable [LawfulBEq Key]

theorem Represents.find_eq (represents : Represents probing table puts)
    (room : puts.length < table.slots.length) (enough : table.slots.length ≤ fuel) (key : Key) :
    table.find probing fuel key = some (puts.lookup key) := by
  obtain ⟨found, sought⟩ := represents.holds.seek_isSome room enough key (probing.home key)
  obtain ⟨_, _, _, clear, _⟩ := seek_eq_some_iff.mp sought
  rw [find, represents.stop_eq, sought, Option.map_some, Option.map_some, ← contentAt]
  rcases not_blocks_iff.mp clear with free | ⟨value, held⟩
  · rw [free, represents.holds.absent sought free]
    rfl
  · rw [held, represents.holds.holds.mp ⟨found, held⟩]
    rfl

/-- A slot filled where the search for its new key ended. -/
theorem Represents.set (represents : Represents probing table puts) {value : Value} {slot : Slot}
    {found : Nat} (sought : probing.seek table.slots key fuel (probing.home key) = some found)
    (free : probing.contentAt table.slots found = none)
    (content : probing.content slot = some (key, value)) :
    probing.Holds (table.slots.set (found % table.slots.length) slot) (puts ++ [(key, value)]) := by
  obtain ⟨bits, power⟩ := represents.power
  have positive : 0 < table.slots.length := power ▸ Nat.two_pow_pos bits
  have fresh := represents.holds.absent sought free
  obtain ⟨distance, _, rfl, _, before⟩ := seek_eq_some_iff.mp sought
  refine ⟨?_, ?_, ?_⟩
  · rw [List.countP_set (Nat.mod_lt _ positive), List.length_append, List.length_singleton]
    have few := represents.holds.few
    split <;> split <;> omega
  · intro position other value' held
    rw [contentAt_set positive] at held
    rw [List.length_set]
    split at held
    next here =>
      rw [content] at held
      cases held
      exact ⟨distance, here, fun earlier within => (before earlier within).set positive free⟩
    next =>
      obtain ⟨far, there, blocked⟩ := represents.holds.reached held
      exact ⟨far, there, fun earlier nearer => (blocked earlier nearer).set positive free⟩
  · intro other value'
    rw [List.lookup_append]
    constructor
    · rintro ⟨position, held⟩
      rw [contentAt_set positive] at held
      split at held
      next =>
        rw [content] at held
        cases held
        rw [fresh, Option.none_or, List.lookup_cons_self]
      next => rw [represents.holds.holds.mp ⟨position, held⟩, Option.some_or]
    · intro looked
      cases present : puts.lookup other with
      | some old =>
          rw [present, Option.some_or] at looked
          cases looked
          obtain ⟨position, held⟩ := represents.holds.holds.mpr present
          refine ⟨position, ?_⟩
          rw [contentAt_set positive, if_neg, held]
          intro same
          rw [← contentAt_congr same, free] at held
          cases held
      | none =>
          rw [present, Option.none_or, List.lookup_cons] at looked
          split at looked
          next same =>
            cases eq_of_beq same
            cases looked
            refine ⟨probing.home key + distance, ?_⟩
            rw [contentAt_set positive, if_pos rfl, content]
          next => cases looked

theorem Represents.put (represents : Represents probing table puts)
    (room : puts.length < table.slots.length) (enough : table.slots.length ≤ fuel)
    {value : Value} {slot : Slot} (content : probing.content slot = some (key, value)) :
    ∃ filled, table.put probing fuel key slot = some filled ∧
      filled.slots.length = table.slots.length ∧
        Represents probing filled (puts ++ [(key, value)]) := by
  obtain ⟨found, sought⟩ := represents.holds.seek_isSome room enough key (probing.home key)
  obtain ⟨_, _, _, clear, _⟩ := seek_eq_some_iff.mp sought
  rw [ProbeTable.put, represents.stop_eq, sought, Option.map_some, Option.map_some, ← contentAt]
  rcases not_blocks_iff.mp clear with free | ⟨first, held⟩
  · rw [free, Option.isSome_none, if_neg Bool.false_ne_true]
    refine ⟨_, rfl, List.length_set, ?_, ?_, represents.set sought free content⟩
    · rw [List.length_set]
      exact represents.power
    · rw [List.length_set]
      exact represents.mask_eq
  · -- The key has a slot: the table stays, and so does the first value.
    rw [held, Option.isSome_some, if_pos rfl]
    have few := represents.holds.few
    refine ⟨table, rfl, rfl, represents.power, represents.mask_eq, ?_, represents.holds.reached, ?_⟩
    · rw [List.length_append]
      omega
    · intro other value'
      rw [represents.holds.holds, List.lookup_append]
      by_cases same : other = key
      · subst same
        rw [represents.holds.holds.mp ⟨_, held⟩, Option.some_or]
      · rw [List.lookup_cons, beq_false_of_ne same, List.lookup_nil, Option.or_none]

/-- Puts that fit all end, and each key then has the first value put for it. -/
theorem Represents.putAll (represents : Represents probing table puts)
    (more : List (Key × Value)) (fill : Key × Value → Slot)
    (content : ∀ entry ∈ more, probing.content (fill entry) = some entry)
    (room : puts.length + more.length < table.slots.length) (enough : table.slots.length ≤ fuel) :
    ∃ filled, putAll probing fuel table (more.map fun entry => (entry.1, fill entry)) =
        some filled ∧ filled.slots.length = table.slots.length ∧
          Represents probing filled (puts ++ more) := by
  induction more generalizing table puts with
  | nil => exact ⟨table, rfl, rfl, by rwa [List.append_nil]⟩
  | cons entry rest inductionHypothesis =>
      rw [List.length_cons] at room
      obtain ⟨next, done, long, step⟩ :=
        represents.put (by omega) enough (content entry List.mem_cons_self)
      obtain ⟨filled, all, length, final⟩ := inductionHypothesis step
        (fun later member => content later (List.mem_cons_of_mem entry member))
        (by rw [List.length_append, List.length_singleton, long]; omega) (long ▸ enough)
      refine ⟨filled, ?_, length.trans long, ?_⟩
      · rw [List.map_cons, ProbeTable.putAll, done, Option.bind_some, all]
      · rwa [List.append_assoc, List.singleton_append] at final

end ProbeTable

end KairosEngine.Library
