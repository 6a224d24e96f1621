import KairosEngine.Library.KeyedList
import KairosEngine.Swarm.Store

/-!
# The similarity index

The entries stand in the order their addresses were first inserted in; a query sees their distances
and addresses alone.
-/

namespace KairosEngine.Swarm

open KairosEngine.Library KairosEngine.Daemon

namespace C2Index

/-- The order of the hits: the distance, then the bytes of the address. -/
def distanceOrder (first second : Text × Nat) : Ordering :=
  (compare first.2 second.2).then (compare (utf8 first.1) (utf8 second.1))

instance : Std.TransCmp distanceOrder :=
  inferInstanceAs (Std.TransCmp (compareLex
    (compareOn fun hit : Text × Nat => hit.2) (compareOn fun hit : Text × Nat => utf8 hit.1)))

instance : Std.LawfulEqCmp distanceOrder where
  eq_of_compare := by
    rintro ⟨first, near⟩ ⟨second, far⟩ equal
    rw [distanceOrder, Ordering.then_eq_eq, Std.LawfulEqCmp.compare_eq_iff_eq,
      Std.LawfulEqCmp.compare_eq_iff_eq] at equal
    exact Prod.ext (utf8_injective equal.2) equal.1

/-- The index after a sequence of inserts. -/
def insertAll (calls : List (Text × Sig)) : C2Index :=
  calls.foldl (fun index call => C2Index.insert index call.1 call.2) []

theorem insertAll_eq (calls : List (Text × Sig)) : insertAll calls = putAll calls := rfl

def hit (query : Sig) (entry : Text × Sig) : Text × Nat := (entry.1, hamming query entry.2)

theorem findSimilar_eq (index : C2Index) (query : Sig) (k : Nat) :
    index.findSimilar query k = (stableSort distanceOrder (index.map (hit query))).take k := rfl

variable {calls others : List (Text × Sig)} {query : Sig}

theorem hits_keys (index : C2Index) : (index.map (hit query)).map Prod.fst = index.map Prod.fst := by
  rw [List.map_map]
  rfl

theorem hits_nodup (calls : List (Text × Sig)) :
    (((insertAll calls).map (hit query)).map Prod.fst).Nodup := by
  rw [hits_keys]
  exact putAll_keys_nodup calls

theorem mem_hits {found : Text × Nat} :
    found ∈ (insertAll calls).map (hit query) ↔
      ∃ sig, lastPut calls found.1 = some sig ∧ found.2 = hamming query sig := by
  rw [List.mem_map]
  constructor
  · rintro ⟨⟨addr, sig⟩, held, rfl⟩
    exact ⟨sig, mem_putAll.mp held, rfl⟩
  · rintro ⟨sig, held, distance⟩
    exact ⟨(found.1, sig), mem_putAll.mpr held, Prod.ext rfl distance.symm⟩

/-- A query depends on the last signature of every address and on nothing else of the inserts. -/
theorem findSimilar_congr (same : ∀ addr, lastPut calls addr = lastPut others addr) (k : Nat) :
    (insertAll calls).findSimilar query k = (insertAll others).findSimilar query k := by
  rw [findSimilar_eq, findSimilar_eq, insertAll_eq, insertAll_eq,
    stableSort_eq_of_perm ((putAll_perm same).map (hit query))]

theorem findSimilar_mem {found : Text × Nat} {k : Nat}
    (member : found ∈ (insertAll calls).findSimilar query k) :
    found ∈ (insertAll calls).map (hit query) :=
  (@stableSort_perm _ distanceOrder _).mem_iff.mp (List.mem_of_mem_take member)

theorem findSimilar_strict (calls : List (Text × Sig)) (k : Nat) :
    ((insertAll calls).findSimilar query k).Pairwise
      fun first second => distanceOrder first second = .lt :=
  (stableSort_strict (List.Nodup.of_map _ (hits_nodup calls))).sublist (List.take_sublist k _)

theorem findSimilar_keys_nodup (calls : List (Text × Sig)) (k : Nat) :
    (((insertAll calls).findSimilar query k).map Prod.fst).Nodup := by
  have whole : ((stableSort distanceOrder ((insertAll calls).map (hit query))).map
      Prod.fst).Nodup :=
    (stableSort_perm.map Prod.fst).nodup_iff.mpr (hits_nodup calls)
  exact whole.sublist ((List.take_sublist k _).map Prod.fst)

theorem findSimilar_length (calls : List (Text × Sig)) (k : Nat) :
    ((insertAll calls).findSimilar query k).length =
      min k (calls.map Prod.fst).dedup.length := by
  rw [findSimilar_eq, List.length_take, (@stableSort_perm _ distanceOrder _).length_eq,
    List.length_map, insertAll_eq, putAll_length]

theorem findSimilar_left {addr : Text} {sig : Sig} {k : Nat}
    (held : lastPut calls addr = some sig)
    (left : addr ∉ ((insertAll calls).findSimilar query k).map Prod.fst) {found : Text × Nat}
    (member : found ∈ (insertAll calls).findSimilar query k) :
    distanceOrder found (addr, hamming query sig) = .lt := by
  have present : (addr, hamming query sig) ∈ (insertAll calls).map (hit query) :=
    mem_hits.mpr ⟨sig, held, rfl⟩
  have outside : (addr, hamming query sig) ∉ (insertAll calls).findSimilar query k :=
    fun inside => left (List.mem_map_of_mem inside)
  exact @stableSort_take_lt _ distanceOrder _ _ _ (List.Nodup.of_map _ (hits_nodup calls)) _ _ _
    member present outside

theorem length_oneBit : [(1 : UInt64), 0, 0, 0].length = 4 := rfl

/-- A signature with its first bit alone. -/
def oneBit : Sig := ⟨[1, 0, 0, 0], length_oneBit⟩

def noBits : Sig := ⟨[0, 0, 0, 0], rfl⟩

end C2Index

end KairosEngine.Swarm
