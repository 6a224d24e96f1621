import Mathlib.Data.UInt
import KairosEngine.Library.ProbeTable
import KairosEngine.Tokenizer.Gemma4Decode
import KairosEngine.Tokenizer.SptbReader

/-!
# The hash tables under the lookups

The string map of `tokenizer.c` and the pair table of `gemma4_bpe.c` are arrays searched from the
hash of a key on.  Filled as the loaders fill them they answer what the lists of their entries do,
and no search in them goes on for ever.
-/

namespace KairosEngine.Tokenizer

open KairosEngine.Library

/-! ## The capacity -/

/-- `while (cap < goal) cap <<= 1`. -/
def doubleCap (goal : Nat) : Nat → Nat → Nat
  | 0, cap => cap
  | fuel + 1, cap => if cap < goal then doubleCap goal fuel (cap <<< 1) else cap

/-- The slots for a number of entries; twice that number is a `size_t`. -/
def capFor (want : Nat) : Nat := doubleCap (want * 2) want 16

theorem doubleCap_spec {goal fuel bits : Nat} (positive : 0 < bits)
    (enough : goal ≤ 2 ^ bits + 2 * fuel) :
    ∃ more, doubleCap goal fuel (2 ^ bits) = 2 ^ more ∧ bits ≤ more ∧ goal ≤ 2 ^ more := by
  induction fuel generalizing bits with
  | zero => exact ⟨bits, rfl, Nat.le_refl bits, enough⟩
  | succ fuel inductionHypothesis =>
      rw [doubleCap]
      split
      next short =>
        rw [Nat.shiftLeft_eq, Nat.pow_one, ← Nat.pow_succ]
        have even : 2 ^ 1 ≤ 2 ^ bits := Nat.pow_le_pow_right (by decide) positive
        obtain ⟨more, cap, above, room⟩ :=
          @inductionHypothesis (bits + 1) (Nat.succ_pos bits) (by rw [Nat.pow_succ]; omega)
        exact ⟨more, cap, by omega, room⟩
      next wide => exact ⟨bits, rfl, Nat.le_refl bits, Nat.le_of_not_lt wide⟩

/-- At most half of the slots are used, and one at least is not. -/
theorem capFor_spec (want : Nat) :
    ∃ bits, capFor want = 2 ^ bits ∧ 2 * want ≤ capFor want ∧ want < capFor want := by
  obtain ⟨bits, cap, above, room⟩ := @doubleCap_spec (want * 2) want 4 (by decide) (by omega)
  have sixteen : 2 ^ 4 ≤ 2 ^ bits := Nat.pow_le_pow_right (by decide) above
  have same : capFor want = 2 ^ bits := cap
  exact ⟨bits, same, by omega, by omega⟩

/-- A table of free slots, as wide as the entries need. -/
theorem represents_free {Slot Key Value : Type} [BEq Key] [LawfulBEq Key]
    {probing : Probing Slot Key Value} {slots : List Slot} {want : Nat}
    (wide : slots.length = capFor want) (free : ∀ slot ∈ slots, probing.content slot = none) :
    ProbeTable.Represents probing ⟨slots, capFor want - 1⟩ [] := by
  obtain ⟨bits, power, _⟩ := capFor_spec want
  exact ⟨⟨bits, wide.trans power⟩, congrArg (· - 1) wide.symm, Probing.holds_free free⟩

/-! ## The string map -/

def fnv1a (s : Bytes) : UInt64 :=
  s.foldl (fun h byte => (h ^^^ byte.toUInt64) * 1099511628211) 1469598103934665603

/-- An `sp_hent`; its key is the `klen` bytes behind the pointer. -/
structure SpHent where
  key : Bytes
  val : Int
  used : Bool
  deriving DecidableEq

abbrev SpHmap := ProbeTable SpHent

def hmapProbing : Probing SpHent Bytes Int where
  content := fun ent => if ent.used then some (ent.key, ent.val) else none
  home := fun key => (fnv1a key).toNat

namespace SpHmap

/-- `hmap_init`. -/
def init (want : Nat) : SpHmap where
  slots := List.replicate (capFor want) ⟨[], 0, false⟩
  mask := capFor want - 1

/-- `hmap_put`. -/
def put (m : SpHmap) (fuel : Nat) (k : Bytes) (v : Int) : Option SpHmap :=
  ProbeTable.put hmapProbing m fuel (hmapKey k) ⟨hmapKey k, v, true⟩

/-- `hmap_get`. -/
def get (m : SpHmap) (fuel : Nat) (k : Bytes) (dflt : Int) : Option Int :=
  (m.find hmapProbing fuel (hmapKey k)).map fun val => val.getD dflt

/-- Entries, put under their indices. -/
def fill (fuel : Nat) (m : SpHmap) : List (Bytes × Nat) → Option SpHmap
  | [] => some m
  | (k, i) :: rest => (put m fuel k i).bind fun m => fill fuel m rest

/-- The map of the tokens, and that of the merge lines. -/
def build (fuel : Nat) (entries : List Bytes) : Option SpHmap :=
  fill fuel (init entries.length) entries.zipIdx

/-- What the entries put. -/
def puts (entries : List (Bytes × Nat)) : List (Bytes × Int) :=
  entries.map fun entry => (hmapKey entry.1, (entry.2 : Int))

theorem fill_eq (fuel : Nat) (m : SpHmap) (entries : List (Bytes × Nat)) :
    fill fuel m entries =
      ProbeTable.putAll hmapProbing fuel m
        ((puts entries).map fun entry => (entry.1, ⟨entry.1, entry.2, true⟩)) := by
  induction entries generalizing m with
  | nil => rfl
  | cons entry rest inductionHypothesis =>
      rw [fill, puts, List.map_cons, List.map_cons, ProbeTable.putAll, put]
      congr 1
      funext m
      exact inductionHypothesis m

/-- The first entry with a key gives its index. -/
theorem lookup_puts (entries : List Bytes) (start : Nat) (k : Bytes) :
    (puts (entries.zipIdx start)).lookup (hmapKey k) =
      (hmapGet entries k).map fun index => ((index + start : Nat) : Int) := by
  induction entries generalizing start with
  | nil => rfl
  | cons entry rest inductionHypothesis =>
      rw [List.zipIdx_cons, puts, List.map_cons, List.lookup_cons, ← puts, hmapGet,
        List.findIdx?_cons, ← hmapGet]
      by_cases same : hmapKey entry = hmapKey k
      · rw [same, beq_self_eq_true, decide_eq_true rfl, if_pos rfl, Option.map_some, Nat.zero_add]
      · rw [beq_false_of_ne (Ne.symm same), decide_eq_false same, if_neg Bool.false_ne_true,
          Option.map_map]
        refine (inductionHypothesis (start + 1)).trans ?_
        congr 1
        funext index
        rw [Function.comp_apply, Nat.add_right_comm, Nat.add_assoc]

/-- The map of the loaders answers what the list of its entries does, and every loop ends. -/
theorem get_build (entries : List Bytes) {fuel : Nat} (enough : capFor entries.length ≤ fuel) :
    ∃ m, build fuel entries = some m ∧ ∀ k dflt,
      get m fuel k dflt = some ((hmapGet entries k).elim dflt fun index => (index : Int)) := by
  obtain ⟨_, _, _, room⟩ := capFor_spec entries.length
  have wide : (init entries.length).slots.length = capFor entries.length := List.length_replicate
  have free : ∀ slot ∈ (init entries.length).slots, hmapProbing.content slot = none := by
    intro slot member
    rw [List.eq_of_mem_replicate member]
    rfl
  have count : (puts entries.zipIdx).length = entries.length := by
    rw [puts, List.length_map, List.length_zipIdx]
  obtain ⟨m, built, length, represents⟩ :=
    (represents_free wide free).putAll (puts entries.zipIdx)
      (fun entry => ⟨entry.1, entry.2, true⟩) (fun _ _ => rfl)
      (by rw [List.length_nil, Nat.zero_add, count, wide]; exact room) (wide ▸ enough)
  refine ⟨m, (fill_eq fuel _ _).trans built, ?_⟩
  intro k dflt
  rw [get, represents.find_eq
    (by rw [List.nil_append, count, length, wide]; exact room) (by rw [length, wide]; exact enough),
    List.nil_append, lookup_puts, Option.map_some]
  cases hmapGet entries k with
  | none => rfl
  | some index => rfl

/-- A token that is listed twice keeps its first id. -/
theorem get_build_twice :
    ∃ m, build 16 [[0x61], [0x62], [0x61]] = some m ∧ get m 16 [0x61] (-1) = some 0 ∧
      get m 16 [0x63] (-1) = some (-1) := by
  obtain ⟨m, built, answers⟩ := @get_build [[0x61], [0x62], [0x61]] 16 (by decide)
  exact ⟨m, built, answers [0x61] (-1), answers [0x63] (-1)⟩

end SpHmap

/-! ## The pair table -/

def spG4EmptyKey : UInt64 := 0xFFFFFFFFFFFFFFFF

/-- `g4_slot` without the mask. -/
def g4Slot (k : UInt64) : UInt64 :=
  let k := (k ^^^ k >>> 33) * 0xFF51AFD7ED558CCD
  let k := (k ^^^ k >>> 33) * 0xC4CEB9FE1A85EC53
  k ^^^ k >>> 33

/-- The key of two ids. -/
def pairKey (left right : Nat) : UInt64 :=
  UInt64.ofNat (word left) <<< 32 ||| UInt64.ofNat (word right)

/-- `g4_pairkey` beside `g4_pairrank`. -/
abbrev G4PairTable := ProbeTable (UInt64 × Int)

def g4Probing : Probing (UInt64 × Int) UInt64 Int where
  content := fun slot => if slot.1 = spG4EmptyKey then none else some slot
  home := fun key => (g4Slot key).toNat

namespace G4PairTable

/-- The arrays as `sp_g4_build` gets them: the keys are set, the ranks are what the memory held. -/
def init (nm : Nat) (stale : Nat → Int) : G4PairTable where
  slots := (List.range (capFor nm)).map fun i => (spG4EmptyKey, stale i)
  mask := capFor nm - 1

/-- `g4_pair_put`. -/
def pairPut (t : G4PairTable) (fuel : Nat) (key : UInt64) (rank : Int) : Option G4PairTable :=
  ProbeTable.put g4Probing t fuel key (key, rank)

/-- `g4_pair_rank`. -/
def pairRank (t : G4PairTable) (fuel left right : Nat) : Option Int :=
  (t.find g4Probing fuel (pairKey left right)).map fun rank => rank.getD (-1)

/-- The puts of the loop over the merge lines. -/
def fill (fuel : Nat) (t : G4PairTable) : List ((Nat × Nat) × Nat) → Option G4PairTable
  | [] => some t
  | ((left, right), rank) :: rest =>
      (pairPut t fuel (pairKey left right) (int32 rank)).bind fun t => fill fuel t rest

def build (fuel nm : Nat) (stale : Nat → Int) (pairs : List ((Nat × Nat) × Nat)) :
    Option G4PairTable :=
  fill fuel (init nm stale) pairs

def puts (pairs : List ((Nat × Nat) × Nat)) : List (UInt64 × Int) :=
  pairs.map fun entry => (pairKey entry.1.1 entry.1.2, int32 entry.2)

theorem fill_eq (fuel : Nat) (t : G4PairTable) (pairs : List ((Nat × Nat) × Nat)) :
    fill fuel t pairs =
      ProbeTable.putAll g4Probing fuel t ((puts pairs).map fun entry => (entry.1, entry)) := by
  induction pairs generalizing t with
  | nil => rfl
  | cons entry rest inductionHypothesis =>
      rw [fill, puts, List.map_cons, List.map_cons, ProbeTable.putAll, pairPut]
      congr 1
      funext t
      exact inductionHypothesis t

theorem pairKey_toNat {left right : Nat} (inLeft : left < 2 ^ 31) (inRight : right < 2 ^ 31) :
    (pairKey left right).toNat = left * 2 ^ 32 + right := by
  have wordLeft : word left = left := Nat.mod_eq_of_lt (by omega)
  have wordRight : word right = right := Nat.mod_eq_of_lt (by omega)
  rw [pairKey, wordLeft, wordRight, UInt64.toNat_or, UInt64.toNat_shiftLeft,
    UInt64.toNat_ofNat_of_lt' (Nat.lt_trans inLeft (by decide)),
    UInt64.toNat_ofNat_of_lt' (Nat.lt_trans inRight (by decide))]
  have shift : (32 : UInt64).toNat % 64 = 32 := by decide
  rw [shift, Nat.mod_eq_of_lt (by rw [Nat.shiftLeft_eq]; omega),
    ← Nat.shiftLeft_add_eq_or_of_lt (by omega), Nat.shiftLeft_eq]

/-- Different pairs of ids have different keys, and none has that of a free slot. -/
theorem pairKey_inj {left right left' right' : Nat} (inLeft : left < 2 ^ 31)
    (inRight : right < 2 ^ 31) (inLeft' : left' < 2 ^ 31) (inRight' : right' < 2 ^ 31) :
    pairKey left right = pairKey left' right' ↔ (left, right) = (left', right') := by
  rw [← UInt64.toNat_inj, pairKey_toNat inLeft inRight, pairKey_toNat inLeft' inRight',
    Prod.mk.injEq]
  omega

theorem pairKey_ne_empty {left right : Nat} (inLeft : left < 2 ^ 31) (inRight : right < 2 ^ 31) :
    pairKey left right ≠ spG4EmptyKey := by
  rw [Ne, ← UInt64.toNat_inj, pairKey_toNat inLeft inRight]
  have empty : spG4EmptyKey.toNat = 2 ^ 64 - 1 := by decide
  omega

/-- What the loop puts: ids and ranks that are `int32_t`s. -/
def Within (pairs : List ((Nat × Nat) × Nat)) : Prop :=
  ∀ entry ∈ pairs, (entry.1.1 < 2 ^ 31 ∧ entry.1.2 < 2 ^ 31) ∧ entry.2 < 2 ^ 31

theorem lookup_puts {pairs : List ((Nat × Nat) × Nat)} (within : Within pairs) {left right : Nat}
    (inLeft : left < 2 ^ 31) (inRight : right < 2 ^ 31) :
    (puts pairs).lookup (pairKey left right) =
      (pairs.lookup (left, right)).map fun rank : Nat => (rank : Int) := by
  induction pairs with
  | nil => rfl
  | cons entry rest inductionHypothesis =>
      obtain ⟨⟨first, second⟩, rank⟩ := entry
      obtain ⟨⟨inFirst, inSecond⟩, small⟩ := within _ List.mem_cons_self
      have later := inductionHypothesis fun entry member => within entry (List.mem_cons_of_mem _ member)
      rw [puts, List.map_cons, List.lookup_cons, List.lookup_cons, ← puts, later]
      dsimp only at inFirst inSecond small ⊢
      by_cases same : (left, right) = (first, second)
      · cases same
        rw [beq_self_eq_true, beq_self_eq_true, int32_of_lt small]
        rfl
      · rw [beq_false_of_ne same, beq_false_of_ne fun keys =>
          same ((pairKey_inj inLeft inRight inFirst inSecond).mp keys)]

theorem mem_pairs_of_build {vocab : Vocab} {merges : List Bytes} {tables : MergeTables}
    (accepts : spG4Build vocab merges = some tables) {entry : (Nat × Nat) × Nat}
    (member : entry ∈ tables.pairs) :
    entry.1.1 < vocab.length ∧ entry.1.2 < vocab.length ∧ entry.2 < 2 ^ 31 := by
  unfold spG4Build at accepts
  split at accepts
  next => cases accepts
  next count =>
    simp only [Option.bind_eq_bind, Option.bind_eq_some_iff, Option.pure_def] at accepts
    obtain ⟨resolved, resolves, byteTok, _, same⟩ := accepts
    cases same
    obtain ⟨⟨found, rank⟩, present, put⟩ := List.mem_filterMap.mp member
    obtain ⟨merge, rfl, rfl⟩ := Option.map_eq_some_iff.mp put
    have stored := List.mk_mem_zipIdx_iff_getElem?.mp present
    obtain ⟨below, _⟩ := List.getElem?_eq_some_iff.mp stored
    rw [length_mapM resolves] at below
    obtain ⟨_, again, line⟩ := mapM_getElem resolves (List.getElem?_eq_getElem below)
    rw [stored] at again
    cases again
    obtain ⟨left, right, _, inLeft, inRight, _⟩ := resolveMerge_some line
    exact ⟨(List.getElem?_eq_some_iff.mp (vocabLookup_getElem inLeft)).1,
      (List.getElem?_eq_some_iff.mp (vocabLookup_getElem inRight)).1, by omega⟩

/-- There are no more puts than merge lines. -/
theorem length_pairs_of_build {vocab : Vocab} {merges : List Bytes} {tables : MergeTables}
    (accepts : spG4Build vocab merges = some tables) :
    tables.pairs.length ≤ merges.length := by
  unfold spG4Build at accepts
  split at accepts
  next => cases accepts
  next =>
    simp only [Option.bind_eq_bind, Option.bind_eq_some_iff, Option.pure_def] at accepts
    obtain ⟨resolved, resolves, byteTok, _, same⟩ := accepts
    cases same
    rw [← length_mapM resolves]
    exact (List.length_filterMap_le _ _).trans (Nat.le_of_eq List.length_zipIdx)

/-- The table of an accepted build ranks the pairs of tokens as the list of its puts does, whatever
the memory of the ranks held, and every loop ends. -/
theorem pairRank_build {vocab : Vocab} {merges : List Bytes} {tables : MergeTables}
    (accepts : spG4Build vocab merges = some tables) (ids : vocab.length ≤ 2 ^ 31) {fuel : Nat}
    (enough : capFor merges.length ≤ fuel) (stale : Nat → Int) :
    ∃ t, build fuel merges.length stale tables.pairs = some t ∧
      ∀ left < vocab.length, ∀ right < vocab.length,
        pairRank t fuel left right =
          some ((tables.pairRank left right).elim (-1) fun rank : Nat => (rank : Int)) := by
  obtain ⟨_, _, _, room⟩ := capFor_spec merges.length
  have few := length_pairs_of_build accepts
  have within : Within tables.pairs := by
    intro entry member
    obtain ⟨inLeft, inRight, small⟩ := mem_pairs_of_build accepts member
    exact ⟨⟨by omega, by omega⟩, small⟩
  have wide : (init merges.length stale).slots.length = capFor merges.length := by
    rw [init, List.length_map, List.length_range]
  have free : ∀ slot ∈ (init merges.length stale).slots, g4Probing.content slot = none := by
    intro slot member
    obtain ⟨i, _, rfl⟩ := List.mem_map.mp member
    rfl
  have count : (puts tables.pairs).length = tables.pairs.length := List.length_map _
  have content : ∀ entry ∈ puts tables.pairs, g4Probing.content entry = some entry := by
    intro entry member
    obtain ⟨put, present, rfl⟩ := List.mem_map.mp member
    obtain ⟨⟨inLeft, inRight⟩, _⟩ := within put present
    exact if_neg (pairKey_ne_empty inLeft inRight)
  obtain ⟨t, built, length, represents⟩ :=
    (represents_free wide free).putAll (puts tables.pairs) id content
      (by rw [List.length_nil, Nat.zero_add, count, wide]; omega) (wide ▸ enough)
  refine ⟨t, (fill_eq fuel _ _).trans built, ?_⟩
  intro left inLeft right inRight
  rw [pairRank, represents.find_eq (by rw [List.nil_append, count, length, wide]; omega)
    (by rw [length, wide]; exact enough), List.nil_append,
    lookup_puts within (by omega) (by omega), Option.map_some, MergeTables.pairRank]
  cases tables.pairs.lookup (left, right) with
  | none => rfl
  | some rank => rfl

theorem pairRank_build_spaced :
    ∃ t, build 16 2 (fun _ => 7) spacedTables.pairs = some t ∧ pairRank t 16 2 3 = some 0 ∧
      pairRank t 16 3 2 = some (-1) := by
  have tokens : spacedVocab.length = 262 := by
    rw [spacedVocab, withBytes, List.length_append, List.length_map, List.length_range]
    rfl
  obtain ⟨t, built, ranks⟩ := @pairRank_build _ _ _ spacedVocab_built (by rw [tokens]; decide)
    16 (by decide) fun _ => 7
  rw [tokens] at ranks
  exact ⟨t, built, ranks 2 (by decide) 3 (by decide), ranks 3 (by decide) 2 (by decide)⟩

end G4PairTable

end KairosEngine.Tokenizer
