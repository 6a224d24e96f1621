import Mathlib.Algebra.Order.Ring.Unbundled.Rat
import Mathlib.Data.List.GetD
import Mathlib.Data.List.Induction
import KairosEngine.Library.ScoreOrder
import KairosEngine.Cuda.MoeRouting

/-!
# The router's choice

`moe_topk_host` shifts every expert into an array of the best so far; `k_hf_spec` gives every
expert a thread that counts the experts ahead of it.  Floats that are not NaN are a linear order.
-/

namespace KairosEngine.Cuda

open KairosEngine.Library

variable {Float Double : Type} [LinearOrder Float]

/-! ## The device speculation -/

/-- The rank `k_hf_spec` counts for the logit of an expert. -/
def hfRank (log : List Float) (i : Nat) (v : Float) : Nat :=
  log.zipIdx.countP fun other => decide (v < other.1) || decide (other.1 = v) && decide (other.2 < i)

/-- One thread of `k_hf_spec`. -/
def kHfSpec (log : List Float) (NU : Nat) (mapL : Option (Nat → Int)) (i : Nat) (out : Nat → Int) :
    Nat → Int :=
  match log[i]? with
  | none => out
  | some v =>
      let r := hfRank log i v
      if r < NU then
        Function.update (Function.update out r i) (8 + r)
          (match mapL with
          | some map => map i
          | none => -2)
      else out

/-- The block, its threads in the order in which they write. -/
def hfSpecBlock (log : List Float) (NU : Nat) (mapL : Option (Nat → Int)) (threads : List Nat)
    (out : Nat → Int) : Nat → Int :=
  threads.foldl (fun out i => kHfSpec log NU mapL i out) out

/-! ## The shifting array -/

variable (arith : MoeArith Float Double)

/-- In front of the first entry with a smaller probability. -/
def Beats (first second : Option Nat × Float) : Prop := second.2 < first.2

instance : DecidableRel (Beats : Option Nat × Float → Option Nat × Float → Prop) :=
  fun first second => inferInstanceAs (Decidable (second.2 < first.2))

variable {arith} (exact : ∀ first second, arith.lt first second = decide (first < second))

include exact

/-- Shifting into the best of a list is inserting into the list and keeping its best. -/
theorem insertTop_take {expert : Nat} {p : Float} :
    ∀ {entries : List (Option Nat × Float)} {size : Nat}, size ≤ entries.length →
      arith.insertTop expert p (entries.take size) =
        (entries.orderedInsert Beats (some expert, p)).take size
  | [], size, few => by
    rw [List.length_nil, Nat.le_zero] at few
    subst few
    rfl
  | entry :: rest, 0, _ => rfl
  | entry :: rest, size + 1, few => by
    rw [List.length_cons] at few
    rw [List.take_succ_cons, MoeArith.insertTop, List.orderedInsert_cons, exact]
    simp only [decide_eq_true_eq]
    by_cases beaten : entry.2 < p
    · have dropped : ((entry :: rest).take (size + 1)).dropLast = (entry :: rest).take size := by
        rw [List.dropLast_eq_take, List.take_take, List.length_take, List.length_cons]
        congr 1
        omega
      rw [if_pos beaten, if_pos (show Beats (some expert, p) entry from beaten),
        ← List.take_succ_cons, dropped, List.take_succ_cons]
    · rw [if_neg beaten, if_neg (show ¬ Beats (some expert, p) entry from beaten),
        List.take_succ_cons, insertTop_take (by omega)]

omit exact in
/-- What every newcomer beats stays behind. -/
theorem orderedInsert_append {newcomer : Option Nat × Float} {fill : List (Option Nat × Float)}
    (beaten : ∀ entry ∈ fill, Beats newcomer entry) :
    ∀ entries : List (Option Nat × Float),
      (entries ++ fill).orderedInsert Beats newcomer =
        entries.orderedInsert Beats newcomer ++ fill
  | [] => by
    cases fill with
    | nil => rfl
    | cons head rest =>
        rw [List.nil_append, List.orderedInsert_cons, if_pos (beaten head List.mem_cons_self)]
        rfl
  | entry :: rest => by
    rw [List.cons_append, List.orderedInsert_cons, List.orderedInsert_cons,
      orderedInsert_append beaten rest]
    split
    next => rfl
    next => rfl

omit exact [LinearOrder Float] in
theorem zipIdx_eq_map (zero : Float) (values : List Float) :
    values.zipIdx =
      (List.range values.length).map fun expert => (values.getD expert zero, expert) := by
  apply List.ext_getElem
  · rw [List.length_zipIdx, List.length_map, List.length_range]
  · intro index inside _
    rw [List.length_zipIdx] at inside
    simp only [List.getElem_zipIdx, List.getElem_map, List.getElem_range, Nat.zero_add,
      List.getD_eq_getElem _ _ inside]

/-- An expert and its probability. -/
def entryOf (score : Nat → Float) (expert : Nat) : Option Nat × Float := (some expert, score expert)

/-- After so many experts the array holds the best of them, and the initial entries behind. -/
theorem shifted_eq {score : Nat → Float} {filler : Option Nat × Float} {NU : Nat} :
    ∀ {count : Nat}, (∀ expert < count, filler.2 < score expert) →
      (List.range count).foldl
          (fun entries expert => arith.insertTop expert (score expert) entries)
          (List.replicate NU filler) =
        ((ranking score count).map (entryOf score) ++ List.replicate NU filler).take NU
  | 0, _ => by
    rw [List.range_zero, List.foldl_nil, ranking, List.map_nil, List.nil_append,
      List.take_of_length_le (by rw [List.length_replicate])]
  | count + 1, above => by
    have before := @shifted_eq score filler NU count fun expert inside => above expert (by omega)
    have inserted : (ranking score (count + 1)).map (entryOf score) =
        ((ranking score count).map (entryOf score)).orderedInsert Beats (entryOf score count) :=
      List.map_orderedInsert _ _ (entryOf score) _ _ (fun _ _ => Iff.rfl) fun _ _ => Iff.rfl
    rw [List.range_succ, List.foldl_append, before, List.foldl_cons, List.foldl_nil,
      insertTop_take exact (by rw [List.length_append, List.length_replicate]; omega), inserted,
      ← orderedInsert_append]
    · rfl
    · intro entry member
      rw [List.eq_of_mem_replicate member]
      exact above count (Nat.lt_succ_self count)

/-- The entries of the array before they are divided. -/
theorem chosen_eq {probs : List Float} {NU : Nat} (few : NU ≤ probs.length)
    (below : arith.negOne < arith.zero) (range : ∀ p ∈ probs, arith.zero ≤ p) :
    probs.zipIdx.foldl (fun entries scored => arith.insertTop scored.2 scored.1 entries)
        (List.replicate NU (none, arith.negOne)) =
      ((ranking (fun expert => probs.getD expert arith.zero) probs.length).take NU).map
        (entryOf fun expert => probs.getD expert arith.zero) := by
  have above : ∀ expert < probs.length, arith.negOne < probs.getD expert arith.zero := by
    intro expert inside
    rw [List.getD_eq_getElem _ _ inside]
    exact below.trans_le (range _ (List.getElem_mem inside))
  rw [zipIdx_eq_map arith.zero, List.foldl_map,
    @shifted_eq _ _ _ _ exact (fun expert => probs.getD expert arith.zero) (none, arith.negOne) NU _
      above,
    List.take_append_of_le_length (by rw [List.length_map, length_ranking]; exact few),
    List.map_take]

omit exact

/-! ## The two agree -/

/-- The rank that a thread counts is the number of experts ahead by logit. -/
theorem hfRank_eq {log : List Float} {zero v : Float} {i : Nat} (known : log[i]? = some v) :
    hfRank log i v = (List.range log.length).countP
      fun other => decide (Outranks (fun expert => log.getD expert zero) other i) := by
  have here : log.getD i zero = v := by rw [List.getD_eq_getElem?_getD, known, Option.getD_some]
  rw [hfRank, zipIdx_eq_map zero, List.countP_map]
  apply List.countP_congr
  intro other _
  simp only [Function.comp_apply, Outranks, here, Bool.or_eq_true, Bool.and_eq_true, decide_eq_true_eq]

/-- Where the probability is monotone and injective in the logit, it ranks the experts as the
logits do. -/
theorem ranking_map {log : List Float} {f : Float → Float} {zero : Float}
    (monotone : ∀ a ∈ log, ∀ b ∈ log, a ≤ b → f a ≤ f b)
    (injective : ∀ a ∈ log, ∀ b ∈ log, f a = f b → a = b) {i index : Nat} (inside : i < log.length) :
    (ranking (fun expert => (log.map f).getD expert zero) log.length)[index]? = some i ↔
      (List.range log.length).countP
        (fun other => decide (Outranks (fun expert => log.getD expert zero) other i)) = index := by
  rw [getElem?_ranking_iff inside]
  have same : (List.range log.length).countP (fun other =>
        decide (Outranks (fun expert => (log.map f).getD expert zero) other i)) =
      (List.range log.length).countP (fun other =>
        decide (Outranks (fun expert => log.getD expert zero) other i)) := by
    apply List.countP_congr
    intro other member
    have below := List.mem_range.mp member
    have value : ∀ expert, (bound : expert < log.length) →
        (log.map f).getD expert zero = f log[expert] := by
      intro expert bound
      rw [List.getD_eq_getElem _ _ (by rwa [List.length_map]), List.getElem_map]
    have mem := fun expert (bound : expert < log.length) => List.getElem_mem bound
    rw [decide_eq_true_eq, decide_eq_true_eq]
    apply outranks_congr
    · simp only [value _ inside, value _ below, List.getD_eq_getElem _ _ inside,
        List.getD_eq_getElem _ _ below]
      constructor
      · intro less
        exact not_le.mp fun more => not_le.mpr less (monotone _ (mem _ below) _ (mem _ inside) more)
      · intro less
        refine lt_of_le_of_ne (monotone _ (mem _ inside) _ (mem _ below) less.le) fun equal => ?_
        exact less.ne (injective _ (mem _ inside) _ (mem _ below) equal)
    · simp only [value _ inside, value _ below, List.getD_eq_getElem _ _ inside,
        List.getD_eq_getElem _ _ below]
      constructor
      · exact injective _ (mem _ below) _ (mem _ inside)
      · exact congrArg f
  rw [same]

/-! ## What the block leaves -/

/-- An address that one thread writes and the others leave. -/
theorem foldl_written {Value : Type} {step : Nat → (Nat → Value) → Nat → Value} {address writer : Nat}
    {value : Value} (writes : ∀ out, step writer out address = value)
    (leaves : ∀ thread, thread ≠ writer → ∀ out, step thread out address = out address) :
    ∀ {threads : List Nat} (out : Nat → Value), writer ∈ threads →
      threads.foldl (fun out thread => step thread out) out address = value := by
  intro threads
  induction threads using List.reverseRecOn with
  | nil =>
      intro out member
      cases member
  | append_singleton earlier last inductionHypothesis =>
      intro out member
      rw [List.foldl_append, List.foldl_cons, List.foldl_nil]
      by_cases same : last = writer
      · rw [same, writes]
      · have before : writer ∈ earlier :=
          (List.mem_append.mp member).resolve_right fun here =>
            same (List.mem_singleton.mp here).symm
        rw [leaves last same, inductionHypothesis out before]

/-- What `k_hf_spec` writes behind the ids. -/
def hfSlot (mapL : Option (Nat → Int)) (i : Nat) : Int :=
  match mapL with
  | some map => map i
  | none => -2

section Block

variable {log : List Float} {NU k i : Nat} {mapL : Option (Nat → Int)} {threads : List Nat} {v : Float}

/-- A thread of another rank leaves the addresses of the rank. -/
theorem kHfSpec_leaves (few : NU ≤ 8) (inside : k < NU) {thread : Nat}
    (apart : ∀ v, log[thread]? = some v → hfRank log thread v ≠ k) (out : Nat → Int) :
    kHfSpec log NU mapL thread out k = out k ∧
      kHfSpec log NU mapL thread out (8 + k) = out (8 + k) := by
  unfold kHfSpec
  cases known : log[thread]? with
  | none => exact ⟨rfl, rfl⟩
  | some v =>
      have other := apart v known
      simp only
      split
      next written =>
        constructor
        · rw [Function.update_of_ne (by omega), Function.update_of_ne (Ne.symm other)]
        · rw [Function.update_of_ne (by omega), Function.update_of_ne (by omega)]
      next => exact ⟨rfl, rfl⟩

theorem kHfSpec_writes (inside : k < NU) (known : log[i]? = some v)
    (rank : hfRank log i v = k) (out : Nat → Int) :
    kHfSpec log NU mapL i out k = i ∧ kHfSpec log NU mapL i out (8 + k) = hfSlot mapL i := by
  simp only [kHfSpec, known, rank, if_pos inside]
  constructor
  · rw [Function.update_of_ne (by omega), Function.update_self]
  · rw [Function.update_self]
    rfl

/-- In whatever order the threads write, a rank's addresses hold the expert of the rank and its
slot. -/
theorem hfSpecBlock_eq (few : NU ≤ 8) (inside : k < NU) (known : log[i]? = some v)
    (rank : hfRank log i v = k)
    (unique : ∀ other w, log[other]? = some w → hfRank log other w = k → other = i)
    (present : i ∈ threads) (out : Nat → Int) :
    hfSpecBlock log NU mapL threads out k = i ∧
      hfSpecBlock log NU mapL threads out (8 + k) = hfSlot mapL i := by
  have leaves := fun thread (other : thread ≠ i) => @kHfSpec_leaves _ _ log NU k mapL few inside thread
    fun w found same => other (unique thread w found same)
  have writes := @kHfSpec_writes _ _ log NU k i mapL v inside known rank
  constructor
  · exact foldl_written (fun out => (writes out).1) (fun thread other out => (leaves thread other out).1)
      out present
  · exact foldl_written (fun out => (writes out).2) (fun thread other out => (leaves thread other out).2)
      out present

end Block

/-! ## The choice -/

/-- The host's choice is the best `NU` experts by probability, with the weights divided by one
number; where the probability is injective on the row, the device ranks the same experts. -/
theorem moeTopkHost_best (exact : ∀ first second, arith.lt first second = decide (first < second))
    (below : arith.negOne < arith.zero) {logits : List Float} {f : Float → Float}
    (softmax : arith.softmax logits = logits.map f) (range : ∀ a ∈ logits, arith.zero ≤ f a)
    {NU : Nat} (few : NU ≤ logits.length) :
    let score := fun expert => (logits.map f).getD expert arith.zero
    ∃ (ids : List Nat) (wsum : Float),
      arith.moeTopkHost logits NU = ids.map (fun i => (some i, arith.div (score i) wsum)) ∧
      (wsum = arith.clampMin ∨ wsum = (ids.map score).foldl arith.add arith.zero) ∧
      TopOf score logits.length NU ids ∧
      ((∀ a ∈ logits, ∀ b ∈ logits, a ≤ b → f a ≤ f b) →
        (∀ a ∈ logits, ∀ b ∈ logits, f a = f b → a = b) →
        (∀ i v, logits[i]? = some v → ∀ k < NU, hfRank logits i v = k ↔ ids[k]? = some i) ∧
        (NU ≤ 8 → ∀ (mapL : Option (Nat → Int)) (threads : List Nat) (out : Nat → Int),
          (∀ i < logits.length, i ∈ threads) → ∀ k < NU, ∀ i, ids[k]? = some i →
            hfSpecBlock logits NU mapL threads out k = i ∧
              hfSpecBlock logits NU mapL threads out (8 + k) = hfSlot mapL i)) := by
  intro score
  have length : (logits.map f).length = logits.length := List.length_map _
  have probabilities : ∀ p ∈ logits.map f, arith.zero ≤ p := by
    intro p member
    obtain ⟨a, present, rfl⟩ := List.mem_map.mp member
    exact range a present
  have chosen := chosen_eq exact (by rw [length]; exact few : NU ≤ (logits.map f).length) below
    probabilities
  rw [length] at chosen
  have sum : ((ranking score logits.length).take NU |>.map (entryOf score)).foldl
        (fun sum entry => arith.add sum entry.2) arith.zero =
      (((ranking score logits.length).take NU).map score).foldl arith.add arith.zero := by
    rw [List.foldl_map, List.foldl_map]
    rfl
  refine ⟨(ranking score logits.length).take NU,
    if arith.lt ((((ranking score logits.length).take NU).map score).foldl arith.add arith.zero)
      arith.clampMin then arith.clampMin
    else (((ranking score logits.length).take NU).map score).foldl arith.add arith.zero,
    ?_, ?_, topOf_take few, ?_⟩
  · simp only [MoeArith.moeTopkHost, softmax]
    rw [chosen, sum, List.map_map]
    rfl
  · split
    next => exact Or.inl rfl
    next => exact Or.inr rfl
  · intro monotone injective
    have agree : ∀ i v, logits[i]? = some v → ∀ k < NU,
        hfRank logits i v = k ↔ ((ranking score logits.length).take NU)[k]? = some i := by
      intro i v known k inside
      rw [List.getElem?_take_of_lt inside, hfRank_eq known]
      exact (ranking_map monotone injective (List.getElem?_eq_some_iff.mp known).1).symm
    refine ⟨agree, fun eight mapL threads out covered k inside i place => ?_⟩
    have below : i < logits.length := (topOf_take few).inside i (List.mem_of_getElem? place)
    have known : logits[i]? = some logits[i] := List.getElem?_eq_getElem below
    apply hfSpecBlock_eq eight inside known ((agree i _ known k inside).mpr place) _
      (covered i below)
    intro other w found rank
    have same := (agree other w found k inside).mp rank
    rw [place, Option.some.injEq] at same
    exact same.symm

/-- Two experts with the same logit. -/
def evenArith : MoeArith Rat Rat where
  lt := fun a b => decide (a < b)
  add := (· + ·)
  mul := (· * ·)
  div := (· / ·)
  zero := 0
  negOne := -1
  clampMin := 1 / 16384
  widen := id
  narrow := id
  addD := (· + ·)
  subD := (· - ·)
  divD := (· / ·)
  expD := fun x => if x = 0 then 1 else 0
  zeroD := 0

theorem moeTopkHost_best_even :
    ∃ (ids : List Nat) (wsum : Rat),
      evenArith.moeTopkHost [3, 3] 1 = ids.map (fun i => (some i,
        evenArith.div (([3, 3].map fun _ => (1 / 2 : Rat)).getD i evenArith.zero) wsum)) ∧
      TopOf (fun i => ([3, 3].map fun _ => (1 / 2 : Rat)).getD i evenArith.zero) 2 1 ids ∧
      ∀ i : Nat, ids[0]? = some i → hfSpecBlock [(3 : Rat), 3] 1 none [1, 0] (fun _ => 7) 0 = i := by
  obtain ⟨ids, wsum, entries, _, best, agree⟩ :=
    @moeTopkHost_best _ _ _ evenArith (fun _ _ => rfl) (by decide +kernel) [3, 3] (fun _ => 1 / 2)
      (by decide +kernel) (fun _ _ => by decide +kernel) 1 (by decide)
  refine ⟨ids, wsum, entries, best, fun i place => ?_⟩
  have device := (agree (fun _ _ _ _ _ => le_rfl) (by simp)).2 (by decide) none [1, 0] (fun _ => 7)
    (by decide) 0 (by decide) i place
  exact device.1

end KairosEngine.Cuda
