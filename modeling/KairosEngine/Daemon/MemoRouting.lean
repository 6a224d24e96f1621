import KairosEngine.Library.Bitmap
import KairosEngine.Library.Shuffle
import Mathlib.Algebra.GroupWithZero.Nat

/-!
# Which heads a memory activates

Every layer shuffles the heads with a generator of its own and activates the first ones.  All
layers start from one hash of the query.
-/

namespace KairosEngine.Daemon

open KairosEngine.Library

/-- The 64 bytes of an encoded tree. -/
structure KsteTree where
  bytes : List UInt8
  size : bytes.length = 64

structure RoutingMask where
  active : List UInt64
  kPerLayer : Nat
  nLayers : Nat
  nHeads : Nat
  sourceTier0Hash : UInt64

namespace RoutingMask

def totalActive (mask : RoutingMask) : Nat := (mask.active.map onesIn).sum

end RoutingMask

def fnv1a64 (bytes : List UInt8) : UInt64 :=
  bytes.foldl (fun h b => (h ^^^ b.toUInt64) * 0x100000001b3) 0xcbf29ce484222325

/-- The new state and the draw. -/
def splitmix64 (state : UInt64) : UInt64 × UInt64 :=
  let state := state + 0x9E3779B97F4A7C15
  let z := state
  let z := (z ^^^ (z >>> 30)) * 0xBF58476D1CE4E5B9
  let z := (z ^^^ (z >>> 27)) * 0x94D049BB133111EB
  (state, z ^^^ (z >>> 31))

/-- The heads of a layer in shuffled order. -/
def layerPerm (nHeads : Nat) (state : UInt64) : List Nat :=
  (fisherYates (fun state => ((splitmix64 state).1, (splitmix64 state).2.toNat)) (nHeads - 1)
    (Array.range nHeads) state).toList

/-- The bitmap of one layer; the first draw is thrown away. -/
def layerBits (tier0Hash : UInt64) (nHeads kPerLayer l : Nat) : UInt64 :=
  let state := tier0Hash ^^^ (UInt64.ofNat l * 0xDEADBEEFCAFEBABE)
  ((layerPerm nHeads (splitmix64 state).1).take kPerLayer).foldl setBit 0

section Routing

variable (spKsteEncode : List Int32 → KsteTree)

/-- The label stands in the bytes 8 to 19 of the tree. -/
def ksteTier0Root (query : List Int32) : List UInt8 :=
  ((spKsteEncode query).bytes.drop 8).take 12

def computeMemoryRouting (groundingQuery : List Int32) (nLayers nHeads kPerLayer : Nat) :
    Except String RoutingMask :=
  if kPerLayer > nHeads then
    .error ("k_per_layer (" ++ toString kPerLayer ++ ") > n_heads (" ++ toString nHeads ++ ")")
  else if nHeads > 64 then
    .error ("n_heads (" ++ toString nHeads ++
      ") > 64 (RoutingMask bitmap limit; relax if Qwen5+ exceeds this)")
  else if nLayers = 0 then .error "n_layers == 0"
  else
    let tier0Hash := fnv1a64 (ksteTier0Root spKsteEncode groundingQuery)
    .ok { active := (List.range nLayers).map (layerBits tier0Hash nHeads kPerLayer)
          kPerLayer := kPerLayer
          nLayers := nLayers
          nHeads := nHeads
          sourceTier0Hash := tier0Hash }

end Routing

/-! ## What a layer activates -/

section Layer

variable {nHeads kPerLayer : Nat}

theorem layerPerm_perm (nHeads : Nat) (state : UInt64) :
    (layerPerm nHeads state).Perm (List.range nHeads) := by
  have shuffled := Array.perm_iff_toList_perm.mp
    (fisherYates_perm (fun state => ((splitmix64 state).1, (splitmix64 state).2.toNat)) (nHeads - 1)
      (Array.range nHeads) state)
  rwa [Array.toList_range] at shuffled

theorem layerPerm_lt {state : UInt64} {head : Nat} (member : head ∈ layerPerm nHeads state) :
    head < nHeads :=
  List.mem_range.mp ((layerPerm_perm nHeads state).mem_iff.mp member)

/-- As many heads as asked for, whatever the seed, and none beyond the last one. -/
theorem layerBits_exact (fits : kPerLayer ≤ nHeads) (bound : nHeads ≤ 64) (tier0Hash : UInt64)
    (l : Nat) :
    onesIn (layerBits tier0Hash nHeads kPerLayer l) = kPerLayer ∧
      ∀ head, nHeads ≤ head →
        (layerBits tier0Hash nHeads kPerLayer l).toNat.testBit head = false := by
  have order := layerPerm_perm nHeads
    (splitmix64 (tier0Hash ^^^ (UInt64.ofNat l * 0xDEADBEEFCAFEBABE))).1
  have inside : ∀ head ∈ (layerPerm nHeads
      (splitmix64 (tier0Hash ^^^ (UInt64.ofNat l * 0xDEADBEEFCAFEBABE))).1).take kPerLayer,
      head < nHeads := fun _ member => layerPerm_lt (List.mem_of_mem_take member)
  have small := fun head member => Nat.lt_of_lt_of_le (inside head member) bound
  constructor
  · have distinct := (order.nodup_iff.mpr List.nodup_range).sublist (List.take_sublist kPerLayer _)
    rw [layerBits, onesIn_places small distinct, List.length_take, order.length_eq,
      List.length_range, Nat.min_eq_left fits]
  · intro head beyond
    rw [layerBits, testBit_places small, decide_eq_false_iff_not]
    exact fun member => absurd (inside head member) (Nat.not_lt_of_le beyond)

end Layer

/-! ## The whole mask -/

section Mask

variable {spKsteEncode : List Int32 → KsteTree} {nLayers nHeads kPerLayer : Nat}

theorem computeMemoryRouting_ok (layers : 1 ≤ nLayers) (fits : kPerLayer ≤ nHeads)
    (bound : nHeads ≤ 64) (query : List Int32) :
    computeMemoryRouting spKsteEncode query nLayers nHeads kPerLayer =
      .ok { active := (List.range nLayers).map
              (layerBits (fnv1a64 (ksteTier0Root spKsteEncode query)) nHeads kPerLayer)
            kPerLayer := kPerLayer
            nLayers := nLayers
            nHeads := nHeads
            sourceTier0Hash := fnv1a64 (ksteTier0Root spKsteEncode query) } := by
  rw [computeMemoryRouting, if_neg (Nat.not_lt_of_le fits), if_neg (Nat.not_lt_of_le bound),
    if_neg (Nat.ne_of_gt layers)]

/-- A bitmap for each layer, with as many heads as asked for in every one. -/
theorem computeMemoryRouting_exact (layers : 1 ≤ nLayers) (fits : kPerLayer ≤ nHeads)
    (bound : nHeads ≤ 64) (query : List Int32) :
    ∃ mask, computeMemoryRouting spKsteEncode query nLayers nHeads kPerLayer = .ok mask ∧
      mask.active.length = nLayers ∧
      (∀ bits ∈ mask.active, onesIn bits = kPerLayer ∧
        ∀ head, nHeads ≤ head → bits.toNat.testBit head = false) ∧
      mask.totalActive = nLayers * kPerLayer := by
  refine ⟨_, computeMemoryRouting_ok layers fits bound query, ?_, ?_, ?_⟩
  · rw [List.length_map, List.length_range]
  · intro bits member
    obtain ⟨l, _, rfl⟩ := List.mem_map.mp member
    exact layerBits_exact fits bound _ l
  · have counts : onesIn ∘ layerBits (fnv1a64 (ksteTier0Root spKsteEncode query)) nHeads kPerLayer =
        fun _ => kPerLayer := funext fun l => (layerBits_exact fits bound _ l).1
    rw [RoutingMask.totalActive, List.map_map, counts, List.map_const',
      List.sum_replicate_nat, List.length_range]

/-- An encoder for queries whose components are one number below 256: all order statistics in the
label are that number. -/
def levelTree (query : List Int32) : KsteTree where
  bytes := List.replicate 8 0 ++
    (List.replicate 6 [UInt8.ofNat (query.headD 0).toNatClampNeg, 0]).flatten ++
    List.replicate 44 0
  size := rfl

theorem computeMemoryRouting_exact_levelTree :
    ∃ mask, computeMemoryRouting levelTree [7, 7, 7] 2 64 64 = .ok mask ∧
      mask.totalActive = 2 * 64 := by
  obtain ⟨mask, routed, _, _, total⟩ :=
    @computeMemoryRouting_exact levelTree 2 64 64 (by decide) (by decide) (by decide) [7, 7, 7]
  exact ⟨mask, routed, total⟩

end Mask

end KairosEngine.Daemon
