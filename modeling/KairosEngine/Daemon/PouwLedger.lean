import KairosEngine.Library.StableSort

/-!
# The receipt ledger

A ledger file is a stream of 64-byte receipts without header or separators.  Reopening it
appends behind whatever is there, and every reader cuts it into records from its first byte on.
-/

namespace KairosEngine.Daemon

open KairosEngine.Library

def receiptBytes : Nat := 64

def spinorSentinel : UInt8 := 0xA5

/-- A receipt as it stands on the wire; the struct is packed and copied bit for bit. -/
structure SpinorReceipt where
  bytes : List UInt8
  size : bytes.length = receiptBytes
  deriving DecidableEq

namespace SpinorReceipt

def sentinel (receipt : SpinorReceipt) : UInt8 := receipt.bytes.getD 63 0

def sentinelOk (receipt : SpinorReceipt) : Bool := receipt.sentinel == spinorSentinel

def inputHash (receipt : SpinorReceipt) : List UInt8 := (receipt.bytes.drop 8).take 24

/-- The rank, little-endian in the two reserved bytes. -/
def sequenceRank (receipt : SpinorReceipt) : Nat :=
  (receipt.bytes.getD 61 0).toNat + 256 * (receipt.bytes.getD 62 0).toNat

/-- `sort_by` of the canonical sort: the rank, then the bytes of the hash. -/
def canonicalOrder (first second : SpinorReceipt) : Ordering :=
  (compare first.sequenceRank second.sequenceRank).then
    (compare first.inputHash second.inputHash)

end SpinorReceipt

inductive LedgerError
  | io
  | badSentinel (index : Nat) (observed : UInt8)
  | partialTail (extraBytes : Nat)
  deriving DecidableEq

structure LedgerIter where
  /-- What the read handle has not read yet. -/
  file : List UInt8
  remaining : Nat
  index : Nat
  finished : Bool

namespace LedgerIter

def next (iter : LedgerIter) : Option (Except LedgerError SpinorReceipt) × LedgerIter :=
  if iter.finished then (none, iter)
  else if iter.remaining = 0 then (none, { iter with finished := true })
  else if iter.remaining < receiptBytes then
    (some (.error (.partialTail iter.remaining)), { iter with finished := true })
  else
    let buf := iter.file.take receiptBytes
    if full : buf.length = receiptBytes then
      let receipt : SpinorReceipt := { bytes := buf, size := full }
      let iter := { iter with
        file := iter.file.drop receiptBytes
        remaining := iter.remaining - receiptBytes }
      if receipt.sentinel ≠ spinorSentinel then
        (some (.error (.badSentinel iter.index receipt.sentinel)), { iter with finished := true })
      else
        (some (.ok receipt), { iter with index := iter.index + 1 })
    else
      (some (.error .io), { iter with finished := true })

/-- The iterator gives at most one item for each byte, and one more. -/
def left (iter : LedgerIter) : Nat :=
  if iter.finished then 0 else iter.remaining + 1

theorem next_left {iter : LedgerIter} (more : iter.next.1 ≠ none) :
    iter.next.2.left < iter.left := by
  revert more
  simp only [next]
  split
  next => exact fun impossible => absurd rfl impossible
  next running =>
    have unfinished : iter.finished = false := Bool.not_eq_true _ ▸ running
    split
    next => exact fun impossible => absurd rfl impossible
    next =>
      split
      next => simp [left, unfinished]
      next long =>
        split
        next =>
          split
          next => simp [left, unfinished]
          next =>
            intro _
            simp only [left, unfinished, receiptBytes] at long ⊢
            simp only [Bool.false_eq_true, if_false]
            omega
        next => simp [left, unfinished]

/-- Everything the iterator yields. -/
def items (iter : LedgerIter) : List (Except LedgerError SpinorReceipt) :=
  match _yielded : iter.next.1 with
  | none => []
  | some item => item :: iter.next.2.items
termination_by iter.left
decreasing_by
  apply next_left
  rw [_yielded]
  nofun

end LedgerIter

/-- An open ledger: the bytes on disk and the cached length. -/
structure Ledger where
  file : List UInt8
  bytesWritten : Nat

namespace Ledger

/-- A file that does not exist is created empty. -/
def openFile (file : List UInt8) : Ledger where
  file := file
  bytesWritten := file.length

/-- The ledger, and the offset of the record in it. -/
def append (ledger : Ledger) (receipt : SpinorReceipt) : Ledger × Nat :=
  ({ file := ledger.file ++ receipt.bytes
     bytesWritten := ledger.bytesWritten + receiptBytes }, ledger.bytesWritten)

def iter (ledger : Ledger) : LedgerIter where
  file := ledger.file
  remaining := ledger.file.length
  index := 0
  finished := false

/-- `collect` into a `Result`, which stops at the first error. -/
def collectResult : List (Except LedgerError SpinorReceipt) →
    Except LedgerError (List SpinorReceipt)
  | [] => .ok []
  | .ok receipt :: rest => (collectResult rest).map (receipt :: ·)
  | .error error :: _ => .error error

def canonicalSort (ledger : Ledger) : Except LedgerError (List SpinorReceipt) :=
  (collectResult ledger.iter.items).map (stableSort SpinorReceipt.canonicalOrder)

def appendAll (receipts : List SpinorReceipt) (ledger : Ledger) : Ledger :=
  receipts.foldl (fun ledger receipt => (ledger.append receipt).1) ledger

/-- The destination and the count of what was appended to it. -/
def replayCanonicalInto (source dest : Ledger) : Except LedgerError (Ledger × Nat) :=
  source.canonicalSort.map fun sorted => (dest.appendAll sorted, sorted.length)

/-- The receipts that iterating over the ledger yields. -/
def receipts (ledger : Ledger) : List SpinorReceipt :=
  ledger.iter.items.filterMap Except.toOption

end Ledger

/-! ## Reading a file of records -/

/-- Receipts one behind the other. -/
def encode (receipts : List SpinorReceipt) : List UInt8 :=
  receipts.flatMap SpinorReceipt.bytes

theorem encode_length (receipts : List SpinorReceipt) :
    (encode receipts).length = receiptBytes * receipts.length := by
  induction receipts with
  | nil => rfl
  | cons receipt rest inductionHypothesis =>
      rw [encode, List.flatMap_cons, List.length_append, receipt.size, List.length_cons,
        Nat.mul_succ, Nat.add_comm]
      exact congrArg (· + receiptBytes) inductionHypothesis

namespace LedgerIter

/-- An iterator that has all of a file before it. -/
def readFrom (file : List UInt8) (index : Nat) : LedgerIter where
  file := file
  remaining := file.length
  index := index
  finished := false

theorem items_none {iter after : LedgerIter} (stops : iter.next = (none, after)) :
    iter.items = [] := by
  rw [items]
  split
  next => rfl
  next item yields =>
    rw [stops] at yields
    cases yields

theorem items_some {iter after : LedgerIter} {item : Except LedgerError SpinorReceipt}
    (yields : iter.next = (some item, after)) : iter.items = item :: after.items := by
  rw [items]
  split
  next nothing =>
    rw [yields] at nothing
    cases nothing
  next other given =>
    rw [yields] at given ⊢
    cases given
    rfl

theorem items_finished {iter : LedgerIter} (finished : iter.finished = true) :
    iter.items = [] := by
  apply @items_none iter iter
  rw [next, if_pos finished]

theorem items_nil (index : Nat) : (readFrom [] index).items = [] := by
  apply items_none
  rfl

theorem next_torn {torn : List UInt8} (index : Nat) (nonempty : torn ≠ [])
    (short : torn.length < receiptBytes) :
    (readFrom torn index).next = (some (.error (.partialTail torn.length)),
      { readFrom torn index with finished := true }) := by
  have running : ¬(readFrom torn index).finished = true := nofun
  have unread : ¬(readFrom torn index).remaining = 0 :=
    fun empty => nonempty (List.length_eq_zero_iff.mp empty)
  have ends : (readFrom torn index).remaining < receiptBytes := short
  unfold next
  rw [if_neg running, if_neg unread, if_pos ends]
  rfl

/-- A rest shorter than a record ends the iteration. -/
theorem items_torn {torn : List UInt8} (index : Nat) (nonempty : torn ≠ [])
    (short : torn.length < receiptBytes) :
    (readFrom torn index).items = [.error (.partialTail torn.length)] := by
  rw [items_some (next_torn index nonempty short), items_finished rfl]

theorem next_record (receipt : SpinorReceipt) (rest : List UInt8) (index : Nat) :
    (readFrom (receipt.bytes ++ rest) index).next =
      if receipt.sentinel ≠ spinorSentinel then
        (some (.error (.badSentinel index receipt.sentinel)),
          { readFrom rest index with finished := true })
      else (some (.ok receipt), readFrom rest (index + 1)) := by
  obtain ⟨bytes, size⟩ := receipt
  have total : (readFrom (bytes ++ rest) index).remaining = receiptBytes + rest.length := by
    rw [readFrom, List.length_append, size]
  have front : (readFrom (bytes ++ rest) index).file.take receiptBytes = bytes := by
    rw [readFrom, ← size]
    exact List.take_left
  have back : (readFrom (bytes ++ rest) index).file.drop receiptBytes = rest := by
    rw [readFrom, ← size]
    exact List.drop_left
  have running : ¬(readFrom (bytes ++ rest) index).finished = true := nofun
  have unread : ¬receiptBytes + rest.length = 0 := by
    simp only [receiptBytes]
    omega
  have enough : ¬receiptBytes + rest.length < receiptBytes := by omega
  unfold next
  simp only [if_neg running, total, if_neg unread, if_neg enough, front, back, dif_pos size,
    Nat.add_sub_cancel_left]
  rfl

theorem items_record (receipt : SpinorReceipt) (rest : List UInt8) (index : Nat) :
    (readFrom (receipt.bytes ++ rest) index).items =
      if receipt.sentinelOk then .ok receipt :: (readFrom rest (index + 1)).items
      else [.error (.badSentinel index receipt.sentinel)] := by
  have step := next_record receipt rest index
  by_cases bad : receipt.sentinel ≠ spinorSentinel
  · rw [if_pos bad] at step
    rw [items_some step, items_finished rfl, SpinorReceipt.sentinelOk,
      if_neg fun good => bad (beq_iff_eq.mp good)]
  · rw [if_neg bad] at step
    rw [items_some step, SpinorReceipt.sentinelOk, if_pos (beq_iff_eq.mpr (not_not.mp bad))]

theorem items_encode {receipts : List SpinorReceipt}
    (valid : ∀ receipt ∈ receipts, receipt.sentinelOk = true) (rest : List UInt8) (index : Nat) :
    (readFrom (encode receipts ++ rest) index).items =
      receipts.map .ok ++ (readFrom rest (index + receipts.length)).items := by
  induction receipts generalizing index with
  | nil => rfl
  | cons receipt others inductionHypothesis =>
      have later := inductionHypothesis
        (fun other member => valid other (List.mem_cons_of_mem _ member)) (index + 1)
      rw [encode, List.flatMap_cons, List.append_assoc, items_record,
        if_pos (valid receipt List.mem_cons_self)]
      rw [Nat.add_assoc, Nat.add_comm 1] at later
      exact congrArg (Except.ok receipt :: ·) later

/-- What is read are records with a sentinel, from the beginning of the file on. -/
theorem encode_receipts_prefix (file : List UInt8) (index : Nat) :
    encode ((readFrom file index).items.filterMap Except.toOption) <+: file ∧
      ∀ receipt ∈ (readFrom file index).items.filterMap Except.toOption,
        receipt.sentinelOk = true := by
  induction measured : file.length using Nat.strongRecOn generalizing file index with
  | _ length inductionHypothesis =>
      by_cases short : file.length < receiptBytes
      · by_cases empty : file = []
        · subst empty
          rw [items_nil]
          exact ⟨List.prefix_rfl, nofun⟩
        · rw [items_torn index empty short]
          exact ⟨List.nil_prefix, nofun⟩
      · let receipt : SpinorReceipt :=
          { bytes := file.take receiptBytes
            size := List.length_take_of_le (Nat.le_of_not_lt short) }
        obtain ⟨rest, split⟩ : ∃ rest, file = receipt.bytes ++ rest :=
          ⟨file.drop receiptBytes, (List.take_append_drop _ _).symm⟩
        rw [split, items_record]
        by_cases good : receipt.sentinelOk = true
        · have shorter : rest.length < length := by
            rw [← measured, split, List.length_append, receipt.size]
            exact Nat.lt_add_of_pos_left (show 0 < 64 by decide)
          obtain ⟨fits, valid⟩ := inductionHypothesis rest.length shorter rest (index + 1) rfl
          rw [if_pos good]
          refine ⟨?_, fun other member => ?_⟩
          · exact (List.prefix_append_right_inj receipt.bytes).mpr fits
          · rcases List.mem_cons.mp member with rfl | later
            · exact good
            · exact valid other later
        · rw [if_neg good]
          exact ⟨List.nil_prefix, nofun⟩

end LedgerIter

namespace Ledger

variable {receipts : List SpinorReceipt}

open LedgerIter

theorem appendAll_file (ledger : Ledger) :
    (ledger.appendAll receipts).file = ledger.file ++ encode receipts := by
  induction receipts generalizing ledger with
  | nil => exact (List.append_nil _).symm
  | cons receipt rest inductionHypothesis =>
      rw [appendAll, List.foldl_cons]
      calc (appendAll rest (ledger.append receipt).1).file
          = (ledger.file ++ receipt.bytes) ++ encode rest := inductionHypothesis _
        _ = ledger.file ++ encode (receipt :: rest) := List.append_assoc _ _ _

/-! ## Reopening behind a torn append -/

theorem receipts_encode {old : List SpinorReceipt}
    (valid : ∀ receipt ∈ old, receipt.sentinelOk = true) (rest : List UInt8) (ledger : Ledger)
    (file : ledger.file = encode old ++ rest) :
    ledger.receipts =
      old ++ (readFrom rest old.length).items.filterMap Except.toOption := by
  have all := items_encode valid rest 0
  have same : ledger.iter = readFrom (encode old ++ rest) 0 := by
    rw [← file]
    rfl
  rw [Ledger.receipts, same, all, List.filterMap_append, Nat.zero_add, List.filterMap_map]
  congr 1
  exact List.filterMap_some

/-- Behind a torn record the appended receipts are read back exactly where their bytes repeat the
torn ones. -/
theorem receipts_torn_iff {torn : List UInt8} (nonempty : torn ≠ [])
    (short : torn.length < receiptBytes) (index : Nat) :
    (readFrom (torn ++ encode receipts) index).items.filterMap Except.toOption = receipts ↔
      (∀ receipt ∈ receipts, receipt.sentinelOk = true) ∧
        encode receipts <+: torn ++ encode receipts := by
  constructor
  · intro read
    obtain ⟨fits, valid⟩ := encode_receipts_prefix (torn ++ encode receipts) index
    rw [read] at fits valid
    exact ⟨valid, fits⟩
  · rintro ⟨valid, rest, repeats⟩
    have length : rest.length = torn.length := by
      have lengths := congrArg List.length repeats
      simp only [List.length_append] at lengths
      omega
    have left : rest ≠ [] := by
      rintro rfl
      exact nonempty (List.length_eq_zero_iff.mp length.symm)
    rw [← repeats, items_encode valid, List.filterMap_append, List.filterMap_map,
      items_torn _ left (length ▸ short)]
    simp only [List.filterMap_cons, Except.toOption, List.filterMap_nil, List.append_nil]
    exact List.filterMap_some

/-- A receipt without content. -/
def blank : SpinorReceipt where
  bytes := List.replicate 63 0 ++ [0xA5]
  size := rfl

theorem blank_ok : ∀ receipt ∈ [blank], receipt.sentinelOk = true := by
  intro receipt member
  rw [List.mem_singleton.mp member]
  rfl

/-- The receipts that the canonical order does not tell apart. -/
def sameKey (receipt other : SpinorReceipt) : Bool :=
  decide (receipt.sequenceRank = other.sequenceRank ∧ receipt.inputHash = other.inputHash)

instance : Std.TransCmp SpinorReceipt.canonicalOrder :=
  inferInstanceAs (Std.TransCmp (compareLex
    (compareOn SpinorReceipt.sequenceRank) (compareOn SpinorReceipt.inputHash)))

theorem equalTo_canonicalOrder (receipt : SpinorReceipt) (receipts : List SpinorReceipt) :
    equalTo SpinorReceipt.canonicalOrder receipt receipts =
      receipts.filter (sameKey receipt) := by
  apply List.filter_congr
  intro other _
  rw [Bool.eq_iff_iff, beq_iff_eq, sameKey, decide_eq_true_eq, SpinorReceipt.canonicalOrder,
    Ordering.then_eq_eq, Std.LawfulEqCmp.compare_eq_iff_eq,
    Std.LawfulEqCmp.compare_eq_iff_eq]

theorem collectResult_ok : collectResult (receipts.map .ok) = .ok receipts := by
  induction receipts with
  | nil => rfl
  | cons receipt rest inductionHypothesis =>
      rw [List.map_cons, collectResult, inductionHypothesis]
      rfl

/-- A ledger without corruption is replayed in the canonical order. -/
theorem replayCanonicalInto_encode (valid : ∀ receipt ∈ receipts, receipt.sentinelOk = true)
    (dest : Ledger) :
    (openFile (encode receipts)).replayCanonicalInto dest =
      .ok (dest.appendAll (stableSort SpinorReceipt.canonicalOrder receipts),
        receipts.length) := by
  have all := items_encode valid [] 0
  rw [List.append_nil, items_nil, List.append_nil] at all
  have same : (openFile (encode receipts)).iter = readFrom (encode receipts) 0 := rfl
  rw [replayCanonicalInto, canonicalSort, same, all, collectResult_ok]
  simp only [Except.map, stableSort_perm.length_eq]

theorem encode_injective {others : List SpinorReceipt} (same : encode receipts = encode others) :
    receipts = others := by
  induction receipts generalizing others with
  | nil =>
      cases others with
      | nil => rfl
      | cons other rest =>
          have lengths := congrArg List.length same
          rw [encode, encode, List.flatMap_cons, List.length_append, other.size] at lengths
          simp only [receiptBytes, List.flatMap_nil, List.length_nil] at lengths
          omega
  | cons receipt rest inductionHypothesis =>
      cases others with
      | nil =>
          have lengths := congrArg List.length same
          rw [encode, encode, List.flatMap_cons, List.length_append, receipt.size] at lengths
          simp only [receiptBytes, List.flatMap_nil, List.length_nil] at lengths
          omega
      | cons other tail =>
          rw [encode, encode, List.flatMap_cons, List.flatMap_cons] at same
          obtain ⟨heads, tails⟩ := List.append_inj same (receipt.size.trans other.size.symm)
          obtain ⟨bytes, size⟩ := receipt
          obtain ⟨otherBytes, otherSize⟩ := other
          cases heads
          rw [inductionHypothesis tails]

/-- The bytes of a fresh ledger after a canonical replay into it. -/
def replayedFile (file : List UInt8) : Except LedgerError (List UInt8) :=
  ((openFile file).replayCanonicalInto (openFile [])).map fun replayed => replayed.1.file

theorem replayedFile_encode (valid : ∀ receipt ∈ receipts, receipt.sentinelOk = true) :
    replayedFile (encode receipts) =
      .ok (encode (stableSort SpinorReceipt.canonicalOrder receipts)) := by
  rw [replayedFile, replayCanonicalInto_encode valid]
  simp only [Except.map, appendAll_file, openFile, List.nil_append]

/-- A receipt of rank 0 and an empty hash that took a microsecond. -/
def quick : SpinorReceipt where
  bytes := List.replicate 4 0 ++ [1] ++ List.replicate 58 0 ++ [0xA5]
  size := rfl

theorem blank_quick_ok : ∀ receipt ∈ [blank, quick], receipt.sentinelOk = true := by
  intro receipt member
  simp only [List.mem_cons, List.not_mem_nil, or_false] at member
  rcases member with rfl | rfl
  · rfl
  · rfl

end Ledger

end KairosEngine.Daemon
