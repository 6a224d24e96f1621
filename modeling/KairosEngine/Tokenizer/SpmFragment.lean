import Mathlib.Data.Prod.Lex
import KairosEngine.Library.IeeeNumber
import KairosEngine.Library.LinkedSpans
import KairosEngine.Library.MinHeap
import KairosEngine.Tokenizer.Gpt2Lane

/-!
# The SentencePiece lane of `tokenizer.c`

Symbols are a linked list over the escaped text, candidate bigrams wait in a heap of fixed
size, and a bigram is skipped when the lengths of its two sides no longer add up to the
length it was pushed with.  Indices and lengths are natural numbers, as long as the `int`s
of the source hold them; a push onto a full heap has no result.
-/

namespace KairosEngine.Tokenizer

open KairosEngine.Library LinkedSpans

/-- `utf8_len`: a malformed lead byte is one byte. -/
def utf8Len (c0 : UInt8) : Nat :=
  if c0 < 0x80 then 1
  else if c0 &&& 0xE0 = 0xC0 then 2
  else if c0 &&& 0xF0 = 0xE0 then 3
  else if c0 &&& 0xF8 = 0xF0 then 4
  else 1

theorem utf8Len_pos (c0 : UInt8) : 0 < utf8Len c0 := by
  unfold utf8Len
  split_ifs <;> exact Nat.succ_pos _

/-! ## Bigrams -/

structure SpmBigram where
  left : Nat
  right : Nat
  score : Ieee.Number
  size : Nat

/-- `spm_hi`: the higher score first, the smaller left index on a tie. -/
def spmHi (a b : SpmBigram) : Bool :=
  b.score.val.lt a.score.val ||
    decide (a.score.val = b.score.val) && decide (a.left < b.left)

/-- The heap order: what is smaller comes first. -/
def SpmBigram.key (bigram : SpmBigram) : Ieee.Numberᵒᵈ ×ₗ Nat :=
  toLex (OrderDual.toDual bigram.score, bigram.left)

theorem spmHi_iff {a b : SpmBigram} : spmHi a b = true ↔ a.key < b.key := by
  rw [SpmBigram.key, SpmBigram.key, Prod.Lex.toLex_lt_toLex]
  simp only [spmHi, Bool.or_eq_true, Bool.and_eq_true, decide_eq_true_eq, OrderDual.toDual_lt_toDual,
    Ieee.Number.lt_iff, OrderDual.toDual_inj, Ieee.Number.val_inj]

/-- `spm_push`. -/
def spmPush (slots : Nat) (heap : MinHeap SpmBigram) (bigram : SpmBigram) :
    Option (MinHeap SpmBigram) :=
  if heap.size < slots then some (heap.push SpmBigram.key bigram) else none

/-! ## The merge -/

section Merge

variable (vocab : Vocab) (scores : Nat → Ieee.Number) (esc : Bytes)

/-- The bigram of two symbols whose joint text is a token. -/
def spmBigram (sym : Nat → Span) (left right : Option Nat) : Option SpmBigram := do
  let left ← left
  let right ← right
  let nn := (sym left).n + (sym right).n
  let id ← vocabLookup vocab ((esc.drop (sym left).off).take nn)
  return { left, right, score := scores id, size := nn }

/-- `SPM_TRY`. -/
def spmTry (slots : Nat) (sym : Nat → Span) (left right : Option Nat)
    (heap : MinHeap SpmBigram) : Option (MinHeap SpmBigram) :=
  match spmBigram vocab scores esc sym left right with
  | some bigram => spmPush slots heap bigram
  | none => some heap

structure SpmState where
  sym : Nat → Span
  heap : MinHeap SpmBigram

/-- A side was consumed or has grown since the push. -/
def spmStale (sym : Nat → Span) (bigram : SpmBigram) : Bool :=
  decide ((sym bigram.left).n = 0) || decide ((sym bigram.right).n = 0) ||
    decide ((sym bigram.left).n + (sym bigram.right).n ≠ bigram.size)

/-- One pop. -/
def spmPop (slots : Nat) (state : SpmState) : Option SpmState :=
  let (bigram, rest) := state.heap.pop SpmBigram.key
  if spmStale state.sym bigram then
    some { state with heap := rest }
  else do
    let sym := absorb state.sym bigram.left bigram.right
    let heap ← spmTry vocab scores esc slots sym (sym bigram.left).prev (some bigram.left) rest
    let heap ← spmTry vocab scores esc slots sym (some bigram.left) (sym bigram.left).next heap
    return { sym, heap }

/-- The pop loop; out of fuel it has no result. -/
def spmLoop (slots : Nat) : Nat → SpmState → Option SpmState
  | fuel, state =>
      if state.heap.size = 0 then some state
      else
        match fuel with
        | 0 => none
        | fuel + 1 => do spmLoop slots fuel (← spmPop vocab scores esc slots state)

/-- The candidate bigrams of the first symbols. -/
def spmStart (slots : Nat) (sym : Nat → Span) (ns : Nat) : Option (MinHeap SpmBigram) :=
  (List.range (ns - 1)).foldlM
    (fun heap index => spmTry vocab scores esc slots sym (some index) (some (index + 1)) heap)
    ⟨fun _ => ⟨0, 0, ⟨.finite 0, rfl⟩, 0⟩, 0⟩

/-- The ids of one symbol: its own, or those of its bytes. -/
def spmEmit (byteTok : UInt8 → Int) (text : Bytes) : List Int :=
  match vocabLookup vocab text with
  | some id => [int32 id]
  | none => text.map byteTok

end Merge

section Fragment

variable (vocab : Vocab) (scores : Nat → Ieee.Number) (byteTok : UInt8 → Int)

/-- The ids `spm_fragment` emits; a failed allocation apart. -/
def spmFragment (s : Bytes) : Option (List Int) :=
  if s = [] then some []
  else do
    let esc := escapeSpaces s
    let slots := 4 * esc.length + 16
    let (sym, ns) := cut utf8Len esc esc.length 0 0 fun _ => ⟨none, none, 0, 0⟩
    let heap ← spmStart vocab scores esc slots sym ns
    let final ← spmLoop vocab scores esc slots (3 * ns) ⟨sym, heap⟩
    return (walk final.sym ns (some 0)).flatMap fun i =>
      spmEmit vocab byteTok (text esc (final.sym i))

/-! ## The plain algorithm -/

/-- The rank of two texts: the higher the score of their concatenation, the lower. -/
def scoreRank (left right : Bytes) : Option Ieee.Numberᵒᵈ :=
  (vocabLookup vocab (left ++ right)).map fun id => OrderDual.toDual (scores id)

/-- Merge the pair with the highest score, leftmost on ties, until no pair is a token. -/
def plainSpm (s : Bytes) : List Int :=
  (GreedyMerge.mergeAll (· ++ ·) (scoreRank vocab scores) (LinkedSpans.pieces utf8Len (escapeSpaces s))).flatMap
    (spmEmit vocab byteTok)

end Fragment

end KairosEngine.Tokenizer
