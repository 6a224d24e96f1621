import Mathlib.Data.List.Sort
import Mathlib.Logic.Function.Basic

/-!
# Host routing of one decode token

`moe_topk_host` and the buckets that both MIDs fill from it.  Floats and doubles are two
types with the operations the source applies to them.
-/

namespace KairosEngine.Cuda

/-- Single and double precision arithmetic, as far as the router and the combine use it. -/
structure MoeArith (Float Double : Type) where
  lt : Float → Float → Bool
  add : Float → Float → Float
  mul : Float → Float → Float
  div : Float → Float → Float
  zero : Float
  negOne : Float
  /-- `6.103515625e-5f`. -/
  clampMin : Float
  widen : Float → Double
  narrow : Double → Float
  addD : Double → Double → Double
  subD : Double → Double → Double
  divD : Double → Double → Double
  expD : Double → Double
  zeroD : Double

variable {Float Double : Type}

namespace MoeArith

variable (arith : MoeArith Float Double)

/-- The largest logit. -/
def top (first : Float) (rest : List Float) : Float :=
  rest.foldl (fun mx logit => if arith.lt mx logit then logit else mx) first

/-- The exponential of a logit below the largest one. -/
def weight (mx logit : Float) : Double :=
  arith.expD (arith.subD (arith.widen logit) (arith.widen mx))

/-- The softmax over all experts. -/
def softmax : List Float → List Float
  | [] => []
  | first :: rest =>
      let mx := arith.top first rest
      let sum := (first :: rest).foldl (fun sum logit => arith.addD sum (arith.weight mx logit))
        arith.zeroD
      (first :: rest).map fun logit => arith.narrow (arith.divD (arith.weight mx logit) sum)

/-- Put an expert in front of the first entry it beats; the last entry falls out. -/
def insertTop (expert : Nat) (p : Float) : List (Option Nat × Float) → List (Option Nat × Float)
  | [] => []
  | entry :: rest =>
      if arith.lt entry.2 p then (some expert, p) :: (entry :: rest).dropLast
      else entry :: insertTop expert p rest

/-- `moe_topk_host`: the chosen experts, none where no expert fired, and their weights. -/
def moeTopkHost (logits : List Float) (NU : Nat) : List (Option Nat × Float) :=
  let chosen := (arith.softmax logits).zipIdx.foldl
    (fun entries scored => arith.insertTop scored.2 scored.1 entries)
    (List.replicate NU (none, arith.negOne))
  let sum := chosen.foldl (fun sum entry => arith.add sum entry.2) arith.zero
  let wsum := if arith.lt sum arith.clampMin then arith.clampMin else sum
  chosen.map fun entry => (entry.1, arith.div entry.2 wsum)

end MoeArith

/-- `bkt_n` and `bktw` at one token. -/
structure Buckets (Float : Type) where
  n : Nat → Nat
  w : Nat → Float

/-- Put one chosen expert into its bucket. -/
def Buckets.put (buckets : Buckets Float) (expert : Nat) (wt : Float) : Buckets Float :=
  let slot := buckets.n expert
  { n := Function.update buckets.n expert (slot + 1)
    w := Function.update buckets.w (expert + slot) wt }

/-- Bucket the chosen experts; none where an index is out of range. -/
def bucketExperts (NE : Nat) : List (Option Nat × Float) → Buckets Float → Option (Buckets Float)
  | [], buckets => some buckets
  | (some expert, wt) :: rest, buckets =>
      if expert < NE then bucketExperts NE rest (buckets.put expert wt) else none
  | (none, _) :: _, _ => none

/-- The experts with a token, ascending. -/
def activeExperts (NE : Nat) (buckets : Buckets Float) : List Nat :=
  (List.range NE).filter fun expert => decide (0 < buckets.n expert)

/-! ## How many experts are active -/

theorem MoeArith.length_insertTop (arith : MoeArith Float Double) (expert : Nat) (p : Float)
    (entries : List (Option Nat × Float)) :
    (arith.insertTop expert p entries).length = entries.length := by
  induction entries with
  | nil => rfl
  | cons entry rest inductionHypothesis =>
      unfold insertTop
      split
      next => simp
      next => rw [List.length_cons, List.length_cons, inductionHypothesis]

theorem MoeArith.length_moeTopkHost (arith : MoeArith Float Double) (logits : List Float)
    (NU : Nat) : (arith.moeTopkHost logits NU).length = NU := by
  unfold moeTopkHost
  rw [List.length_map]
  apply List.foldlRecOn (motive := fun entries : List (Option Nat × Float) => entries.length = NU)
  · exact List.length_replicate
  · intro entries length scored _
    rw [length_insertTop, length]

theorem bucketExperts_member {NE : Nat} {chosen : List (Option Nat × Float)}
    {buckets filled : Buckets Float} (fits : bucketExperts NE chosen buckets = some filled)
    (expert : Nat) (active : 0 < filled.n expert) :
    0 < buckets.n expert ∨ some expert ∈ chosen.map Prod.fst := by
  induction chosen generalizing buckets with
  | nil =>
      cases fits
      exact Or.inl active
  | cons entry rest inductionHypothesis =>
      obtain ⟨index, wt⟩ := entry
      cases index with
      | none => cases fits
      | some first =>
          rw [bucketExperts] at fits
          split at fits
          next =>
            rcases inductionHypothesis fits with before | later
            · by_cases here : expert = first
              · subst here
                exact Or.inr List.mem_cons_self
              · simp only [Buckets.put, Function.update_of_ne here] at before
                exact Or.inl before
            · exact Or.inr (List.mem_cons_of_mem _ later)
          next => cases fits

/-- At most one active expert for each chosen entry. -/
theorem length_activeExperts {NE : Nat} {chosen : List (Option Nat × Float)}
    {buckets filled : Buckets Float} (empty : ∀ expert, buckets.n expert = 0)
    (fits : bucketExperts NE chosen buckets = some filled) :
    (activeExperts NE filled).length ≤ chosen.length := by
  have distinct : (activeExperts NE filled).Nodup := List.nodup_range.filter _
  have inside : (activeExperts NE filled).map some ⊆ chosen.map Prod.fst := by
    intro index member
    obtain ⟨expert, active, rfl⟩ := List.mem_map.mp member
    have fired := of_decide_eq_true (List.mem_filter.mp active).2
    rcases bucketExperts_member fits expert fired with before | present
    · rw [empty] at before
      exact absurd before (Nat.lt_irrefl 0)
    · exact present
  have sizes := (List.subperm_of_subset
    (distinct.map (Option.some_injective Nat)) inside).length_le
  rwa [List.length_map, List.length_map] at sizes

end KairosEngine.Cuda
