import Mathlib.Data.List.Dedup
import Mathlib.Data.List.Induction

/-!
# Keyed lists

A list of entries with a key each, where putting an entry replaces the one of its key in place or
adds it at the end.  What the list holds is the last value put for each key; only the order of the
entries remembers more of its history.
-/

namespace KairosEngine.Library

universe u v

variable {Key : Type u} {Value : Type v} [DecidableEq Key]

def putEntry (entries : List (Key × Value)) (key : Key) (value : Value) : List (Key × Value) :=
  if entries.any fun entry => decide (entry.1 = key) then
    entries.map fun entry => if entry.1 = key then (key, value) else entry
  else entries ++ [(key, value)]

def putAll (calls : List (Key × Value)) : List (Key × Value) :=
  calls.foldl (fun entries call => putEntry entries call.1 call.2) []

/-- The value put last for a key. -/
def lastPut (calls : List (Key × Value)) (key : Key) : Option Value :=
  calls.reverse.lookup key

variable {entries calls others : List (Key × Value)} {key : Key} {value : Value}

theorem putAll_concat (call : Key × Value) :
    putAll (calls ++ [call]) = putEntry (putAll calls) call.1 call.2 := by
  rw [putAll, List.foldl_append]
  rfl

theorem lastPut_concat (call : Key × Value) :
    lastPut (calls ++ [call]) key = if key = call.1 then some call.2 else lastPut calls key := by
  rw [lastPut, List.reverse_append, List.reverse_singleton, List.singleton_append,
    List.lookup_cons]
  by_cases same : key = call.1
  · simp [same]
  · simp [same, beq_false_of_ne same, lastPut]

theorem mem_putEntry {entry : Key × Value} :
    entry ∈ putEntry entries key value ↔
      entry = (key, value) ∨ entry ∈ entries ∧ entry.1 ≠ key := by
  rw [putEntry]
  split
  next present =>
    obtain ⟨held, member, named⟩ := List.any_eq_true.mp present
    rw [decide_eq_true_eq] at named
    rw [List.mem_map]
    constructor
    · rintro ⟨other, inside, rfl⟩
      by_cases same : other.1 = key
      · exact .inl (if_pos same)
      · rw [if_neg same]
        exact .inr ⟨inside, same⟩
    · rintro (rfl | ⟨inside, different⟩)
      · exact ⟨held, member, if_pos named⟩
      · exact ⟨entry, inside, if_neg different⟩
  next absent =>
    rw [List.mem_append, List.mem_singleton]
    constructor
    · rintro (inside | rfl)
      · refine .inr ⟨inside, fun same => absent ?_⟩
        exact List.any_eq_true.mpr ⟨entry, inside, decide_eq_true same⟩
      · exact .inl rfl
    · rintro (rfl | ⟨inside, _⟩)
      · exact .inr rfl
      · exact .inl inside

theorem putEntry_keys :
    (putEntry entries key value).map Prod.fst =
      if key ∈ entries.map Prod.fst then entries.map Prod.fst
      else entries.map Prod.fst ++ [key] := by
  have listed : (entries.any fun entry => decide (entry.1 = key)) = true ↔
      key ∈ entries.map Prod.fst := by
    simp only [List.any_eq_true, decide_eq_true_eq, List.mem_map]
  rw [putEntry]
  by_cases present : key ∈ entries.map Prod.fst
  · rw [if_pos (listed.mpr present), if_pos present, List.map_map]
    apply List.map_congr_left
    intro entry _
    by_cases same : entry.1 = key
    · simp [same]
    · simp [same]
  · rw [if_neg (fun held => present (listed.mp held)), if_neg present, List.map_append]
    rfl

/-- No key stands in the list twice. -/
theorem putAll_keys_nodup (calls : List (Key × Value)) :
    ((putAll calls).map Prod.fst).Nodup := by
  induction calls using List.reverseRecOn with
  | nil => exact List.nodup_nil
  | append_singleton before call inductionHypothesis =>
      rw [putAll_concat, putEntry_keys]
      split
      next => exact inductionHypothesis
      next absent =>
        rw [List.nodup_append]
        refine ⟨inductionHypothesis, List.nodup_singleton _, ?_⟩
        rintro held inside other added rfl
        exact absent (List.mem_singleton.mp added ▸ inside)

/-- The list holds the last value put for each key. -/
theorem mem_putAll : (key, value) ∈ putAll calls ↔ lastPut calls key = some value := by
  induction calls using List.reverseRecOn with
  | nil => exact ⟨nofun, nofun⟩
  | append_singleton before call inductionHypothesis =>
      rw [putAll_concat, mem_putEntry, lastPut_concat, inductionHypothesis]
      obtain ⟨put, stored⟩ := call
      by_cases same : key = put
      · subst same
        simp only [Prod.mk.injEq, true_and, if_true, Option.some_inj, ne_eq, not_true_eq_false,
          and_false, or_false]
        exact eq_comm
      · simp [same]

/-- Sequences of puts with the same last values leave the same entries, in some order. -/
theorem putAll_perm (same : ∀ key, lastPut calls key = lastPut others key) :
    (putAll calls).Perm (putAll others) := by
  apply (List.perm_ext_iff_of_nodup (List.Nodup.of_map _ (putAll_keys_nodup calls))
    (List.Nodup.of_map _ (putAll_keys_nodup others))).mpr
  rintro ⟨key, value⟩
  rw [mem_putAll, mem_putAll, same]

theorem mem_putAll_keys : key ∈ (putAll calls).map Prod.fst ↔ key ∈ calls.map Prod.fst := by
  induction calls using List.reverseRecOn with
  | nil => exact Iff.rfl
  | append_singleton before call inductionHypothesis =>
      rw [putAll_concat, putEntry_keys, List.map_append, List.mem_append, ← inductionHypothesis]
      split
      next present =>
        constructor
        · exact .inl
        · rintro (inside | named)
          · exact inside
          · rw [List.mem_singleton.mp named]
            exact present
      next =>
        rw [List.mem_append]
        rfl

theorem putAll_length (calls : List (Key × Value)) :
    (putAll calls).length = (calls.map Prod.fst).dedup.length := by
  have keys : ((putAll calls).map Prod.fst).Perm (calls.map Prod.fst).dedup := by
    apply (List.perm_ext_iff_of_nodup (putAll_keys_nodup calls) (List.nodup_dedup _)).mpr
    intro key
    rw [mem_putAll_keys, List.mem_dedup]
  rw [← keys.length_eq, List.length_map]

end KairosEngine.Library
