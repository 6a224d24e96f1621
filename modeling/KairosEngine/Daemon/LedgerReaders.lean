import Mathlib.Data.List.TakeWhile
import KairosEngine.Daemon.PouwLedger

/-!
# The readers of a ledger file

The iterator goes by the length the file had when it was opened, the broadcast by where a read
gives nothing any more, and a replay by the iterator.  All of them see the complete records of the
file, and stop at the first bad sentinel or at a torn tail.
-/

namespace KairosEngine.Daemon

open KairosEngine.Library

inductive ReadOutcome
  | full (receipt : SpinorReceipt)
  | eof
  | partialTail (extra : Nat)

/-- An open file: what has not been read, and how much one read gives at most.  Where the portions
are used up a read gives all that was asked for. -/
structure ReadHandle where
  file : List UInt8
  portions : List Nat

/-- What the buffer stands for when no more is read into it. -/
def readOutcome (buf : List UInt8) : ReadOutcome :=
  if full : buf.length = receiptBytes then .full { bytes := buf, size := full }
  else if buf = [] then .eof
  else .partialTail buf.length

/-- A read gives at least one byte, except at the end of the file. -/
def readExactOrEof (file filled : List UInt8) : List Nat → ReadOutcome × ReadHandle
  | [] =>
      (readOutcome (filled ++ file.take (receiptBytes - filled.length)),
        { file := file.drop (receiptBytes - filled.length), portions := [] })
  | portion :: rest =>
      if filled.length < receiptBytes then
        let got := file.take (min (portion + 1) (receiptBytes - filled.length))
        if got = [] then (readOutcome filled, { file := file, portions := rest })
        else readExactOrEof (file.drop got.length) (filled ++ got) rest
      else (readOutcome filled, { file := file, portions := portion :: rest })

/-- The buffer is filled as far as the file goes, whatever the portions. -/
theorem readExactOrEof_spec (file filled : List UInt8) (portions : List Nat)
    (room : filled.length ≤ receiptBytes) :
    (readExactOrEof file filled portions).1 =
        readOutcome (filled ++ file.take (receiptBytes - filled.length)) ∧
      (readExactOrEof file filled portions).2.file = file.drop (receiptBytes - filled.length) := by
  induction portions generalizing file filled with
  | nil => exact ⟨rfl, rfl⟩
  | cons portion rest inductionHypothesis =>
      by_cases short : filled.length < receiptBytes
      · generalize given : file.take (min (portion + 1) (receiptBytes - filled.length)) = got
        by_cases nothing : got = []
        · have empty : file = [] := by
            rcases List.take_eq_nil_iff.mp (given.trans nothing) with none | empty
            · omega
            · exact empty
          simp [readExactOrEof, short, empty]
        · have size : got.length ≤ receiptBytes - filled.length := by
            rw [← given, List.length_take]
            omega
          have cut : file = got ++ file.drop got.length :=
            (List.prefix_iff_eq_append.mp (given ▸ List.take_prefix _ file)).symm
          have room : (filled ++ got).length ≤ receiptBytes := by
            rw [List.length_append]
            omega
          have less : receiptBytes - (filled ++ got).length =
              receiptBytes - filled.length - got.length := by
            rw [List.length_append]
            omega
          obtain ⟨outcome, left⟩ := inductionHypothesis (file.drop got.length) (filled ++ got) room
          simp only [readExactOrEof, if_pos short, given, if_neg nothing]
          rw [outcome, left, less]
          generalize file.drop got.length = back at cut
          subst cut
          rw [List.take_append, List.drop_append, List.take_of_length_le size,
            List.drop_of_length_le size, List.append_assoc, List.nil_append]
          exact ⟨rfl, rfl⟩
      · have none : receiptBytes - filled.length = 0 := by omega
        simp [readExactOrEof, short, none]

theorem readOutcome_receipt (receipt : SpinorReceipt) :
    readOutcome receipt.bytes = .full receipt := by
  rw [readOutcome, dif_pos receipt.size]

/-- A full buffer is the next record of the file. -/
theorem readExactOrEof_full {handle after : ReadHandle} {receipt : SpinorReceipt}
    (read : readExactOrEof handle.file [] handle.portions = (.full receipt, after)) :
    handle.file = receipt.bytes ++ after.file := by
  obtain ⟨outcome, left⟩ :=
    readExactOrEof_spec handle.file [] handle.portions (Nat.zero_le receiptBytes)
  rw [read] at outcome left
  rw [left]
  simp only [readOutcome, List.nil_append] at outcome
  split at outcome
  · cases outcome
    exact (List.take_append_drop _ _).symm
  · split at outcome
    · cases outcome
    · cases outcome

namespace Ledger

/-- The loop of the broadcast, from a record on. -/
def broadcastFrom (handle : ReadHandle) (idx : Nat) (out : List SpinorReceipt) :
    Except LedgerError (List SpinorReceipt) :=
  match _read : readExactOrEof handle.file [] handle.portions with
  | (.eof, _) => .ok out
  | (.partialTail extra, _) => .error (.partialTail extra)
  | (.full receipt, after) =>
      if receipt.sentinel ≠ spinorSentinel then .error (.badSentinel idx receipt.sentinel)
      else broadcastFrom after (idx + 1) (out ++ [receipt])
termination_by handle.file.length
decreasing_by
  rw [readExactOrEof_full _read, List.length_append, receipt.size]
  exact Nat.lt_add_of_pos_left (show 0 < 64 by decide)

/-- An offset within a record is invalid input. -/
def broadcastToPeers (ledger : Ledger) (sinceOffset : Nat) (portions : List Nat) :
    Except LedgerError (List SpinorReceipt) :=
  if sinceOffset % receiptBytes ≠ 0 then .error .io
  else
    broadcastFrom { file := ledger.file.drop sinceOffset, portions := portions }
      (sinceOffset / receiptBytes) []

/-- The loop of the replay over what the iterator yields. -/
def replayItems : List (Except LedgerError SpinorReceipt) → Ledger → Nat →
    Ledger × Except LedgerError Nat
  | [], into, count => (into, .ok count)
  | .error error :: _, into, _ => (into, .error error)
  | .ok receipt :: rest, into, count => replayItems rest (into.append receipt).1 (count + 1)

/-- The destination, and the number of records appended to it. -/
def replayFrom (source into : Ledger) : Ledger × Except LedgerError Nat :=
  replayItems source.iter.items into 0

end Ledger

/-! ## What a file holds -/

/-- The complete records of a file. -/
def records (file : List UInt8) : List SpinorReceipt :=
  if full : receiptBytes ≤ file.length then
    { bytes := file.take receiptBytes, size := List.length_take_of_le full } ::
      records (file.drop receiptBytes)
  else []
termination_by file.length
decreasing_by
  rw [List.length_drop]
  simp only [receiptBytes] at full ⊢
  omega

/-- The records up to the first bad sentinel. -/
def validPrefix (receipts : List SpinorReceipt) : List SpinorReceipt :=
  receipts.takeWhile SpinorReceipt.sentinelOk

/-- The first bad sentinel, else the torn tail; the records are counted from an index on. -/
def firstError (index : Nat) (receipts : List SpinorReceipt) (extraBytes : Nat) :
    Option LedgerError :=
  match receipts.dropWhile SpinorReceipt.sentinelOk with
  | bad :: _ => some (.badSentinel (index + (validPrefix receipts).length) bad.sentinel)
  | [] => if extraBytes = 0 then none else some (.partialTail extraBytes)

theorem records_append (receipt : SpinorReceipt) (rest : List UInt8) :
    records (receipt.bytes ++ rest) = receipt :: records rest := by
  obtain ⟨bytes, size⟩ := receipt
  have full : receiptBytes ≤ (bytes ++ rest).length := by
    rw [List.length_append, size]
    exact Nat.le_add_right _ _
  have front : (bytes ++ rest).take receiptBytes = bytes := by
    rw [← size]
    exact List.take_left
  have back : (bytes ++ rest).drop receiptBytes = rest := by
    rw [← size]
    exact List.drop_left
  rw [records, dif_pos full]
  simp only [front, back]

theorem records_short {torn : List UInt8} (short : torn.length < receiptBytes) :
    records torn = [] := by
  rw [records, dif_neg (Nat.not_le_of_lt short)]

theorem records_encode (receipts : List SpinorReceipt) {torn : List UInt8}
    (short : torn.length < receiptBytes) : records (encode receipts ++ torn) = receipts := by
  induction receipts with
  | nil => exact records_short short
  | cons receipt rest inductionHypothesis =>
      rw [encode, List.flatMap_cons, List.append_assoc, records_append]
      exact congrArg (receipt :: ·) inductionHypothesis

/-- Every file is a list of records and less than a record behind them. -/
theorem exists_encode (file : List UInt8) :
    ∃ receipts torn, file = encode receipts ++ torn ∧ torn.length < receiptBytes := by
  induction measured : file.length using Nat.strongRecOn generalizing file with
  | _ length inductionHypothesis =>
      by_cases short : file.length < receiptBytes
      · exact ⟨[], file, rfl, short⟩
      · have full := Nat.le_of_not_lt short
        have shorter : (file.drop receiptBytes).length < length := by
          rw [List.length_drop]
          simp only [receiptBytes] at full ⊢
          omega
        obtain ⟨receipts, torn, rest, size⟩ := inductionHypothesis _ shorter _ rfl
        refine ⟨⟨file.take receiptBytes, List.length_take_of_le full⟩ :: receipts, torn, ?_, size⟩
        rw [encode, List.flatMap_cons, List.append_assoc, ← encode, ← rest,
          List.take_append_drop]

theorem file_split (file : List UInt8) :
    ∃ torn, torn.length = file.length % receiptBytes ∧ file = encode (records file) ++ torn := by
  obtain ⟨receipts, torn, split, short⟩ := exists_encode file
  refine ⟨torn, ?_, ?_⟩
  · rw [split, List.length_append, encode_length, Nat.mul_add_mod, Nat.mod_eq_of_lt short]
  · rw [split, records_encode receipts short]

theorem drop_encode {receipts : List SpinorReceipt} {index : Nat}
    (before : index ≤ receipts.length) (torn : List UInt8) :
    (encode receipts ++ torn).drop (receiptBytes * index) =
      encode (receipts.drop index) ++ torn := by
  have front : (encode (receipts.take index)).length = receiptBytes * index := by
    rw [encode_length, List.length_take_of_le before]
  have split : encode receipts = encode (receipts.take index) ++ encode (receipts.drop index) := by
    rw [encode, encode, encode, ← List.flatMap_append, List.take_append_drop]
  rw [split, List.append_assoc, ← front, List.drop_left]

theorem validPrefix_ok (receipts : List SpinorReceipt) :
    ∀ receipt ∈ validPrefix receipts, receipt.sentinelOk = true :=
  fun _ member => List.mem_takeWhile_imp member

theorem firstError_none_iff (index : Nat) (receipts : List SpinorReceipt) (extraBytes : Nat) :
    firstError index receipts extraBytes = none ↔
      (∀ receipt ∈ receipts, receipt.sentinelOk = true) ∧ extraBytes = 0 := by
  rw [← List.dropWhile_eq_nil_iff, firstError]
  cases receipts.dropWhile SpinorReceipt.sentinelOk with
  | nil => simp
  | cons bad rest => simp

theorem firstError_cons {receipt : SpinorReceipt} (good : receipt.sentinelOk = true) (index : Nat)
    (rest : List SpinorReceipt) (extraBytes : Nat) :
    firstError index (receipt :: rest) extraBytes = firstError (index + 1) rest extraBytes := by
  simp only [firstError, validPrefix, List.dropWhile_cons_of_pos good,
    List.takeWhile_cons_of_pos good, List.length_cons, Nat.add_assoc, Nat.add_comm 1]

/-- What the receipts before the first error leave of the file. -/
theorem encode_validPrefix (receipts : List SpinorReceipt) :
    encode receipts =
      encode (validPrefix receipts) ++ encode (receipts.dropWhile SpinorReceipt.sentinelOk) := by
  rw [encode, encode, encode, ← List.flatMap_append]
  exact congrArg (List.flatMap SpinorReceipt.bytes) List.takeWhile_append_dropWhile.symm

/-! ## The iterator -/

namespace LedgerIter

/-- The iterator after so many calls of `next`. -/
def after : Nat → LedgerIter → LedgerIter
  | 0, iter => iter
  | calls + 1, iter => after calls iter.next.2

theorem finished_of_none {iter : LedgerIter} (stops : iter.next.1 = none) :
    iter.next.2.finished = true := by
  revert stops
  simp only [next]
  split
  next finished => exact fun _ => finished
  next =>
    split
    next => exact fun _ => rfl
    next =>
      split
      next => rintro ⟨⟩
      next =>
        split
        next =>
          split
          next => rintro ⟨⟩
          next => rintro ⟨⟩
        next => rintro ⟨⟩

/-- The calls give the items one by one, and `None` for ever behind them. -/
theorem next_after (calls : Nat) (iter : LedgerIter) :
    (iter.after calls).next.1 = iter.items[calls]? := by
  induction calls generalizing iter with
  | zero =>
      cases yields : iter.next with
      | mk item after =>
          rw [LedgerIter.after, yields]
          cases item with
          | none => rw [items_none yields, List.getElem?_nil]
          | some item => rw [items_some yields, List.getElem?_cons_zero]
  | succ calls inductionHypothesis =>
      rw [LedgerIter.after, inductionHypothesis]
      cases yields : iter.next with
      | mk item after =>
          cases item with
          | none =>
              have finished := finished_of_none (congrArg Prod.fst yields)
              rw [yields] at finished
              rw [items_none yields, items_finished finished, List.getElem?_nil,
                List.getElem?_nil]
          | some item => rw [items_some yields, List.getElem?_cons_succ]

theorem items_split (receipts : List SpinorReceipt) {torn : List UInt8}
    (short : torn.length < receiptBytes) (index : Nat) :
    (readFrom (encode receipts ++ torn) index).items =
      (validPrefix receipts).map .ok ++
        ((firstError index receipts torn.length).map .error).toList := by
  rw [encode_validPrefix, List.append_assoc, items_encode (validPrefix_ok receipts), firstError]
  congr 1
  cases stopped : receipts.dropWhile SpinorReceipt.sentinelOk with
  | nil =>
      by_cases whole : torn = []
      · subst whole
        exact items_nil _
      · have extra : torn.length ≠ 0 := fun empty => whole (List.length_eq_zero_iff.mp empty)
        simp only [if_neg extra]
        exact items_torn _ whole short
  | cons bad rest =>
      have rejected : bad.sentinelOk = false := by
        have head := List.head?_dropWhile_not SpinorReceipt.sentinelOk receipts
        rw [stopped] at head
        exact head
      rw [encode, List.flatMap_cons, List.append_assoc, items_record, rejected]
      rfl

end LedgerIter

namespace Ledger

/-! ## The broadcast and the replay -/

theorem broadcastFrom_full {handle after : ReadHandle} {receipt : SpinorReceipt} (idx : Nat)
    (out : List SpinorReceipt)
    (read : readExactOrEof handle.file [] handle.portions = (.full receipt, after)) :
    broadcastFrom handle idx out =
      if receipt.sentinelOk then broadcastFrom after (idx + 1) (out ++ [receipt])
      else .error (.badSentinel idx receipt.sentinel) := by
  rw [broadcastFrom]
  split
  next given =>
    rw [read] at given
    nomatch given
  next given =>
    rw [read] at given
    nomatch given
  next given =>
    rw [read] at given
    cases given
    by_cases good : receipt.sentinel = spinorSentinel
    · simp [SpinorReceipt.sentinelOk, good]
    · simp [SpinorReceipt.sentinelOk, good]

/-- However the reads are cut up, the loop ends with the first error or with all the records. -/
theorem broadcastFrom_encode (receipts : List SpinorReceipt) {torn : List UInt8}
    (short : torn.length < receiptBytes) (portions : List Nat) (idx : Nat)
    (out : List SpinorReceipt) :
    broadcastFrom { file := encode receipts ++ torn, portions := portions } idx out =
      match firstError idx receipts torn.length with
      | some error => .error error
      | none => .ok (out ++ receipts) := by
  induction receipts generalizing portions idx out with
  | nil =>
      obtain ⟨outcome, _⟩ := readExactOrEof_spec torn [] portions (Nat.zero_le receiptBytes)
      rw [List.nil_append, List.length_nil, Nat.sub_zero, List.take_of_length_le
        (Nat.le_of_lt short), readOutcome, dif_neg (Nat.ne_of_lt short)] at outcome
      have nothing : encode ([] : List SpinorReceipt) ++ torn = torn := rfl
      rw [nothing, broadcastFrom, List.append_nil]
      by_cases whole : torn = []
      · rw [if_pos whole] at outcome
        split
        next => simp [firstError, whole]
        next given => rw [given] at outcome; nomatch outcome
        next given => rw [given] at outcome; nomatch outcome
      · rw [if_neg whole] at outcome
        split
        next given => rw [given] at outcome; nomatch outcome
        next given =>
          rw [given] at outcome
          cases outcome
          simp [firstError, whole]
        next given => rw [given] at outcome; nomatch outcome
  | cons receipt rest inductionHypothesis =>
      have file : encode (receipt :: rest) ++ torn = receipt.bytes ++ (encode rest ++ torn) := by
        rw [encode, List.flatMap_cons, List.append_assoc]
        rfl
      obtain ⟨outcome, left⟩ := readExactOrEof_spec (receipt.bytes ++ (encode rest ++ torn)) []
        portions (Nat.zero_le receiptBytes)
      rw [List.nil_append, List.length_nil, Nat.sub_zero, ← receipt.size, List.take_left,
        readOutcome_receipt] at outcome
      rw [List.length_nil, Nat.sub_zero, ← receipt.size, List.drop_left] at left
      rw [file]
      cases read : readExactOrEof (receipt.bytes ++ (encode rest ++ torn)) [] portions with
      | mk given after =>
          rw [read] at outcome left
          cases outcome
          rw [broadcastFrom_full idx out read]
          cases good : receipt.sentinelOk with
          | false => simp [firstError, validPrefix, good]
          | true =>
              have later := inductionHypothesis after.portions (idx + 1) (out ++ [receipt])
              rw [← left, List.append_assoc] at later
              rw [if_pos rfl, firstError_cons good]
              exact later

theorem replayItems_ok (receipts : List SpinorReceipt) (into : Ledger) (count : Nat)
    (rest : List (Except LedgerError SpinorReceipt)) :
    replayItems (receipts.map .ok ++ rest) into count =
      replayItems rest (into.appendAll receipts) (count + receipts.length) := by
  induction receipts generalizing into count with
  | nil => rfl
  | cons receipt others inductionHypothesis =>
      rw [List.map_cons, List.cons_append, replayItems, inductionHypothesis, List.length_cons,
        Nat.add_assoc, Nat.add_comm 1]
      rfl

/-- A replay leaves the records before the first error behind what the destination had. -/
theorem replayFrom_encode (receipts : List SpinorReceipt) {torn : List UInt8}
    (short : torn.length < receiptBytes) {source : Ledger}
    (file : source.file = encode receipts ++ torn) (into : Ledger) :
    source.replayFrom into =
      (into.appendAll (validPrefix receipts),
        match firstError 0 receipts torn.length with
        | some error => .error error
        | none => .ok (validPrefix receipts).length) := by
  have items : source.iter.items = (LedgerIter.readFrom source.file 0).items := rfl
  rw [replayFrom, items, file, LedgerIter.items_split receipts short 0, replayItems_ok]
  cases firstError 0 receipts torn.length with
  | none => simp [replayItems]
  | some error => rfl

/-! ## The readers agree -/

/-- The broadcast from a record on gives the records from there, unless one of these is bad or the
tail is torn. -/
theorem broadcastToPeers_exact (ledger : Ledger) (index : Nat) (portions : List Nat)
    (inside : receiptBytes * index ≤ ledger.file.length) :
    ledger.broadcastToPeers (receiptBytes * index) portions =
      match firstError index ((records ledger.file).drop index)
        (ledger.file.length % receiptBytes) with
      | some error => .error error
      | none => .ok ((records ledger.file).drop index) := by
  have aligned : ¬receiptBytes * index % receiptBytes ≠ 0 :=
    not_not.mpr (Nat.mul_mod_right receiptBytes index)
  obtain ⟨torn, size, file⟩ := file_split ledger.file
  have short : torn.length < receiptBytes := size ▸ Nat.mod_lt _ (by decide)
  have before : index ≤ (records ledger.file).length := by
    rw [file, List.length_append, encode_length] at inside
    exact Nat.le_of_lt_succ (Nat.lt_of_mul_lt_mul_left (a := receiptBytes) (by
      rw [Nat.mul_succ]
      omega))
  rw [broadcastToPeers, if_neg aligned, Nat.mul_div_cancel_left index (by decide), ← size]
  conv_lhs => rw [file]
  rw [drop_encode before, broadcastFrom_encode _ short]
  rfl

/-- The iterator gives the records up to the first error, that error, and then nothing more. -/
theorem iter_exact (ledger : Ledger) (calls : Nat) :
    (ledger.iter.after calls).next.1 =
      ((validPrefix (records ledger.file)).map .ok ++
        ((firstError 0 (records ledger.file) (ledger.file.length % receiptBytes)).map
          .error).toList)[calls]? := by
  obtain ⟨torn, size, file⟩ := file_split ledger.file
  have short : torn.length < receiptBytes := size ▸ Nat.mod_lt _ (by decide)
  have items : ledger.iter.items = (LedgerIter.readFrom ledger.file 0).items := rfl
  rw [LedgerIter.next_after, items, ← size]
  conv_lhs => rw [file, LedgerIter.items_split _ short]

theorem replayFrom_exact (source into : Ledger) :
    source.replayFrom into =
      (into.appendAll (validPrefix (records source.file)),
        match firstError 0 (records source.file) (source.file.length % receiptBytes) with
        | some error => .error error
        | none => .ok (validPrefix (records source.file)).length) := by
  obtain ⟨torn, size, file⟩ := file_split source.file
  have short : torn.length < receiptBytes := size ▸ Nat.mod_lt _ (by decide)
  rw [← size]
  exact replayFrom_encode _ short file into

end Ledger

end KairosEngine.Daemon
