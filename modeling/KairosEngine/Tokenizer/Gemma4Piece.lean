import Mathlib.Data.Prod.Lex
import KairosEngine.Library.GreedyMerge
import KairosEngine.Library.MinHeap
import KairosEngine.Tokenizer.Gemma4Build

/-!
# One piece through the merge heap of `gemma4_bpe.c`

Symbols are a linked list over the bytes of the piece, candidate bigrams wait in a heap,
and a bigram whose sides have changed since it was pushed is skipped when it is popped.
-/

namespace KairosEngine.Tokenizer

open KairosEngine.Library

/-! ## Symbols and bigrams -/

structure Sym where
  prev : Option Nat
  next : Option Nat
  off : Nat
  n : Nat
  id : Option Nat

/-- `g4_utf8_len`: from the upper half of the lead byte, valid or not. -/
def g4Utf8Len (lead : UInt8) : Nat :=
  [1, 1, 1, 1, 1, 1, 1, 1, 1, 1, 1, 1, 2, 2, 3, 4].getD (lead.toNat / 16) 1

theorem g4Utf8Len_pos (lead : UInt8) : 0 < g4Utf8Len lead := by
  have lead_lt := lead.toNat_lt
  have lengths : ∀ half < 16,
      0 < [1, 1, 1, 1, 1, 1, 1, 1, 1, 1, 1, 1, 2, 2, 3, 4].getD half 1 := by decide
  exact lengths (lead.toNat / 16) (by omega)

/-- The bytes of a span of the piece. -/
def span (piece : Bytes) (off n : Nat) : Bytes := (piece.drop off).take n

theorem span_append (piece : Bytes) (off left right : Nat) :
    span piece off left ++ span piece (off + left) right = span piece off (left + right) := by
  rw [span, span, span, List.take_add, List.drop_drop]

def Sym.text (piece : Bytes) (sym : Sym) : Bytes := span piece sym.off sym.n

structure Bigram where
  rank : Nat
  left : Nat
  right : Nat
  lid : Nat
  rid : Nat

/-- `g4_before` compares ranks, then left indices. -/
def Bigram.key (bigram : Bigram) : Nat ×ₗ Nat := toLex (bigram.rank, bigram.left)

/-- The loop that cuts the piece into characters. -/
def initSyms (vocab : Vocab) (piece : Bytes) :
    Nat → Nat → Nat → (Nat → Sym) → (Nat → Sym) × Nat
  | 0, _, ns, sym => (sym, ns)
  | fuel + 1, o, ns, sym =>
      if o < piece.length then
        let L := min (g4Utf8Len (piece.getD o 0)) (piece.length - o)
        initSyms vocab piece fuel (o + L) (ns + 1)
          (Function.update sym ns
            { prev := if ns = 0 then none else some (ns - 1)
              next := if piece.length ≤ o + L then none else some (ns + 1)
              off := o
              n := L
              id := vocabLookup vocab (span piece o L) })
      else
        (sym, ns)

/-- The bigram of two symbols, where both are tokens with a rank. -/
def bigramOf (tables : MergeTables) (sym : Nat → Sym) (left right : Option Nat) :
    Option Bigram := do
  let left ← left
  let right ← right
  let lid ← (sym left).id
  let rid ← (sym right).id
  let rank ← tables.pairRank lid rid
  return { rank, left, right, lid, rid }

/-- `g4_try_pair`. -/
def g4TryPair (tables : MergeTables) (sym : Nat → Sym) (left right : Option Nat)
    (heap : MinHeap Bigram) : MinHeap Bigram :=
  match bigramOf tables sym left right with
  | some bigram => heap.push Bigram.key bigram
  | none => heap

structure PieceState where
  sym : Nat → Sym
  heap : MinHeap Bigram

/-- The sides were consumed or changed since the push. -/
def outdated (sym : Nat → Sym) (bigram : Bigram) : Bool :=
  decide ((sym bigram.left).n = 0) || decide ((sym bigram.right).n = 0) ||
    decide ((sym bigram.left).id ≠ some bigram.lid) ||
    decide ((sym bigram.right).id ≠ some bigram.rid)

/-- Join the right symbol to the left one and unlink it. -/
def mergeSyms (tables : MergeTables) (sym : Nat → Sym) (bigram : Bigram) : Nat → Sym :=
  let left := sym bigram.left
  let right := sym bigram.right
  let joined := Function.update
    (Function.update sym bigram.left
      { left with
        n := left.n + right.n
        id := (tables.result[bigram.rank]?).join
        next := right.next })
    bigram.right { right with n := 0, id := none }
  match right.next with
  | some next => Function.update joined next { joined next with prev := some bigram.left }
  | none => joined

/-- One pop. -/
def popBigram (tables : MergeTables) (state : PieceState) : PieceState :=
  let (bigram, rest) := state.heap.pop Bigram.key
  if outdated state.sym bigram then
    { state with heap := rest }
  else
    let sym := mergeSyms tables state.sym bigram
    let before := g4TryPair tables sym (sym bigram.left).prev (some bigram.left) rest
    { sym, heap := g4TryPair tables sym (some bigram.left) (sym bigram.left).next before }

/-- The pop loop. -/
def mergeLoop (tables : MergeTables) : Nat → PieceState → PieceState
  | 0, state => state
  | fuel + 1, state =>
      if state.heap.size = 0 then state else mergeLoop tables fuel (popBigram tables state)

/-- The ids of one symbol: its own, or those of its bytes. -/
def emitText (vocab : Vocab) (tables : MergeTables) (text : Bytes) : List Nat :=
  match vocabLookup vocab text with
  | some id => [id]
  | none => text.map fun byte => tables.byteTok.getD byte.toNat 0

/-- The walk over the linked list. -/
def emitFrom (tables : MergeTables) (piece : Bytes) (sym : Nat → Sym) :
    Nat → Option Nat → List Nat
  | fuel + 1, some index =>
      (if (sym index).n = 0 then []
        else
          match (sym index).id with
          | some id => [id]
          | none =>
              ((sym index).text piece).map fun byte => tables.byteTok.getD byte.toNat 0) ++
        emitFrom tables piece sym fuel (sym index).next
  | 0, _ => []
  | _ + 1, none => []

/-- The candidate bigrams of the initial symbols. -/
def initHeap (tables : MergeTables) (sym : Nat → Sym) (ns : Nat) : MinHeap Bigram :=
  (List.range (ns - 1)).foldl
    (fun heap index => g4TryPair tables sym (some index) (some (index + 1)) heap)
    ⟨fun _ => ⟨0, 0, 0, 0, 0⟩, 0⟩

/-- The ids `g4_piece` emits; an allocation failure apart.  The loops end within the fuel
they are given. -/
def g4Piece (vocab : Vocab) (tables : MergeTables) (piece : Bytes) (isNlRun : Bool) : List Nat :=
  match (if isNlRun then vocabLookup vocab piece else none) with
  | some id => [id]
  | none =>
      let (sym, ns) := initSyms vocab piece piece.length 0 0 fun _ => ⟨none, none, 0, 0, none⟩
      let final := mergeLoop tables (3 * ns) ⟨sym, initHeap tables sym ns⟩
      emitFrom tables piece final.sym ns (if ns = 0 then none else some 0)

/-! ## The plain algorithm -/

section Plain

/-- The characters of a piece, by their lead bytes. -/
def utf8Chunks : Bytes → List Bytes
  | [] => []
  | lead :: rest =>
      (lead :: rest).take (g4Utf8Len lead) :: utf8Chunks ((lead :: rest).drop (g4Utf8Len lead))
termination_by piece => piece.length
decreasing_by
  have positive := g4Utf8Len_pos lead
  simp only [List.length_drop, List.length_cons]
  omega

variable (rank : Bytes → Bytes → Option Nat)

def rankAt (symbols : List Bytes) (position : Nat) : Option Nat := do
  let left ← symbols[position]?
  let right ← symbols[position + 1]?
  rank left right

/-- Rescan the first positions for the lowest rank, leftmost on ties. -/
def bestBelow (symbols : List Bytes) (bound : Nat) : Option (Nat × Nat) :=
  (List.range bound).foldl
    (fun best position =>
      match rankAt rank symbols position with
      | some found =>
          if best.all fun pair : Nat × Nat => decide (found < pair.1) then some (found, position)
          else best
      | none => best)
    none

def bestPair (symbols : List Bytes) : Option (Nat × Nat) :=
  bestBelow rank symbols symbols.length

def mergeAt (symbols : List Bytes) (position : Nat) : List Bytes :=
  (symbols.set position (symbols.getD position [] ++ symbols.getD (position + 1) [])).eraseIdx
    (position + 1)

/-- What a scan has found. -/
def Best (symbols : List Bytes) (bound : Nat) : Option (Nat × Nat) → Prop
  | none => ∀ position < bound, rankAt rank symbols position = none
  | some (found, position) =>
      position < bound ∧ rankAt rank symbols position = some found ∧
        ∀ other < bound, ∀ value, rankAt rank symbols other = some value →
          found < value ∨ found = value ∧ position ≤ other

theorem rankAt_eq (symbols : List Bytes) (position : Nat) :
    rankAt rank symbols position = GreedyMerge.rankAt rank symbols position := rfl

theorem bestBelow_eq (symbols : List Bytes) (bound : Nat) :
    bestBelow rank symbols bound = GreedyMerge.bestBelow rank symbols bound := by
  unfold bestBelow GreedyMerge.bestBelow
  congr 1
  funext best position
  rw [rankAt_eq]
  cases GreedyMerge.rankAt rank symbols position with
  | none => rfl
  | some found => rfl

theorem bestBelow_best (symbols : List Bytes) (bound : Nat) :
    Best rank symbols bound (bestBelow rank symbols bound) := by
  have best := GreedyMerge.bestBelow_best rank symbols bound
  rw [← bestBelow_eq] at best
  cases scan : bestBelow rank symbols bound with
  | none =>
      rw [scan] at best
      exact best
  | some pair =>
      rw [scan] at best
      exact best

/-- A scan finds the one pair that no other beats. -/
theorem bestPair_eq_some {symbols : List Bytes} {found position : Nat}
    (ranked : rankAt rank symbols position = some found)
    (least : ∀ other value, rankAt rank symbols other = some value →
      found < value ∨ found = value ∧ position ≤ other) :
    bestPair rank symbols = some (found, position) := by
  rw [bestPair, bestBelow_eq]
  exact GreedyMerge.bestPair_eq_some ranked least

theorem bestPair_eq_none {symbols : List Bytes}
    (unranked : ∀ position, rankAt rank symbols position = none) : bestPair rank symbols = none := by
  rw [bestPair, bestBelow_eq]
  exact GreedyMerge.bestPair_eq_none unranked

theorem bestPair_inside {symbols : List Bytes} {found position : Nat}
    (best : bestPair rank symbols = some (found, position)) : position + 1 < symbols.length := by
  rw [bestPair, bestBelow_eq] at best
  exact GreedyMerge.bestPair_inside best

/-- Merge the best pair until no adjacent pair has a rank. -/
def mergeAll (symbols : List Bytes) : List Bytes :=
  match best : bestPair rank symbols with
  | some (_, position) => mergeAll (mergeAt symbols position)
  | none => symbols
termination_by symbols.length
decreasing_by
  have inside := bestPair_inside rank best
  rw [mergeAt, List.length_eraseIdx_of_lt (by rw [List.length_set]; exact inside), List.length_set]
  omega

theorem mergeAll_of_best {symbols : List Bytes} {found position : Nat}
    (best : bestPair rank symbols = some (found, position)) :
    mergeAll rank symbols = mergeAll rank (mergeAt symbols position) := by
  rw [mergeAll]
  split
  next _ _ other =>
    rw [best] at other
    cases other
    rfl
  next none =>
    rw [best] at none
    cases none

theorem mergeAll_of_none {symbols : List Bytes} (none : bestPair rank symbols = none) :
    mergeAll rank symbols = symbols := by
  rw [mergeAll]
  split
  next _ _ best =>
    rw [none] at best
    cases best
  next => rfl

end Plain

/-- The plain algorithm over the strings of the merge lines. -/
def plainPiece (vocab : Vocab) (merges : List Bytes) (tables : MergeTables) (piece : Bytes) :
    List Nat :=
  (mergeAll (mergeRank merges) (utf8Chunks piece)).flatMap (emitText vocab tables)

end KairosEngine.Tokenizer
