import Mathlib.Tactic.Ring
import KairosEngine.Library.BufWriter
import KairosEngine.Daemon.PouwLedger

/-!
# Appends that fail

The ledger writes through a buffered writer and flushes after every receipt.  A receipt whose
append failed is still in the buffer, and whoever appends next writes it out first; the cached
length does not count it.
-/

namespace KairosEngine.Daemon

open KairosEngine.Library

/-- The capacity of `BufWriter::new`. -/
def bufCapacity : Nat := 8192

structure BufferedLedger where
  writer : BufWriter UInt8
  bytesWritten : Nat
  deriving DecidableEq

/-- An append, and how the file answers the writes that it makes. -/
structure AppendCall where
  receipt : SpinorReceipt
  outcomes : List WriteOutcome

namespace BufferedLedger

def openFile (file : List UInt8) : BufferedLedger where
  writer := { device := file, buffer := [] }
  bytesWritten := file.length

def lenBytes (ledger : BufferedLedger) : Nat := ledger.bytesWritten

/-- The ledger that readers of the file see. -/
def onDisk (ledger : BufferedLedger) : Ledger where
  file := ledger.writer.device
  bytesWritten := ledger.bytesWritten

/-- `flush` of the file itself does nothing. -/
def append (ledger : BufferedLedger) (call : AppendCall) :
    BufferedLedger × Except LedgerError Nat :=
  let offset := ledger.bytesWritten
  let written := ledger.writer.writeAndFlush bufCapacity call.receipt.bytes call.outcomes
  if !written.done then ({ ledger with writer := written.writer }, .error .io)
  else
    ({ writer := written.writer, bytesWritten := ledger.bytesWritten + receiptBytes }, .ok offset)

/-- Appends one after the other, whether or not they fail; with each receipt that was acknowledged
goes the offset it was acknowledged with. -/
def run : BufferedLedger → List AppendCall → BufferedLedger × List (SpinorReceipt × Nat)
  | ledger, [] => (ledger, [])
  | ledger, call :: rest =>
      match ledger.append call with
      | (ledger, .ok offset) =>
          ((ledger.run rest).1, (call.receipt, offset) :: (ledger.run rest).2)
      | (ledger, .error _) => ledger.run rest

/-- The file is what it was, and behind it the acknowledged receipts, each at its offset. -/
def Faithful (file : List UInt8) (calls : List AppendCall) : Prop :=
  ((openFile file).run calls).1.writer.device =
      file ++ encode (((openFile file).run calls).2.map Prod.fst) ∧
    ((openFile file).run calls).2.map Prod.snd =
      (List.range ((openFile file).run calls).2.length).map
        fun index => file.length + receiptBytes * index

instance (file : List UInt8) (calls : List AppendCall) : Decidable (Faithful file calls) :=
  inferInstanceAs (Decidable (_ ∧ _))

end BufferedLedger

/-- The writes of the append go through. -/
def AppendCall.Taken (call : AppendCall) : Prop :=
  BufWriter.Takes receiptBytes call.outcomes = true

/-- The first write of the append that is not interrupted takes nothing. -/
def AppendCall.Refused (call : AppendCall) : Prop :=
  BufWriter.Refuses call.outcomes = true

namespace BufferedLedger

variable {ledger : BufferedLedger} {call : AppendCall} {calls : List AppendCall}

theorem receipt_fits (receipt : SpinorReceipt) : receipt.bytes.length < bufCapacity := by
  rw [receipt.size]
  decide

theorem receipt_nonempty (receipt : SpinorReceipt) : receipt.bytes ≠ [] := by
  intro empty
  have size := receipt.size
  rw [empty] at size
  nomatch size

/-! ## What one append can do -/

theorem append_taken (empty : ledger.writer.buffer = []) (taken : call.Taken) :
    ledger.append call =
      ({ writer := { device := ledger.writer.device ++ call.receipt.bytes, buffer := [] }
         bytesWritten := ledger.bytesWritten + receiptBytes }, .ok ledger.bytesWritten) := by
  have done := @BufWriter.writeAndFlush_takes _ _ ledger.writer _ call.outcomes
    (receipt_fits call.receipt) empty
  rw [call.receipt.size, taken] at done
  rw [append, BufWriter.writeAndFlush_done (receipt_fits call.receipt) done, done, empty,
    List.append_nil]
  rfl

/-- Without a fault the ledger is the one without a buffer. -/
theorem append_onDisk (empty : ledger.writer.buffer = []) (taken : call.Taken) :
    ((ledger.append call).1.onDisk, (ledger.append call).2) =
      ((ledger.onDisk.append call.receipt).1, .ok (ledger.onDisk.append call.receipt).2) := by
  rw [append_taken empty taken]
  rfl

/-- A refused append keeps its receipt for later or drops it, and the file is as it was. -/
theorem append_refused (refused : call.Refused) :
    (ledger.append call).1.writer.device = ledger.writer.device ∧
      (ledger.append call).1.writer.buffer ≠ [] ∧
      (ledger.append call).1.bytesWritten = ledger.bytesWritten ∧
      (ledger.append call).2 = .error .io := by
  obtain ⟨failed, same⟩ := @BufWriter.writeAndFlush_refused _ _ ledger.writer _ call.outcomes
    (receipt_fits call.receipt) (receipt_nonempty call.receipt) refused
  have held := BufWriter.writeAndFlush_failed (receipt_fits call.receipt) failed
  rw [append, failed]
  exact ⟨same, held, rfl, rfl⟩

/-- The file has more than the counter says. -/
def Ahead (ledger : BufferedLedger) : Prop :=
  ledger.bytesWritten < ledger.writer.device.length

/-- What no append makes good again. -/
theorem append_ahead (ahead : ledger.Ahead) : (ledger.append call).1.Ahead := by
  have grows := @BufWriter.writeAndFlush_device_le _ _ ledger.writer _ call.outcomes
    (receipt_fits call.receipt) (receipt_nonempty call.receipt)
  simp only [Ahead] at ahead ⊢
  cases done : (ledger.writer.writeAndFlush bufCapacity call.receipt.bytes call.outcomes).done with
  | false =>
      rw [append, done]
      exact Nat.lt_of_lt_of_le ahead grows
  | true =>
      rw [append, done, BufWriter.writeAndFlush_done (receipt_fits call.receipt) done]
      simp only [Bool.not_true, Bool.false_eq_true, if_false, List.length_append,
        call.receipt.size]
      omega

/-- A file that has as much as the counter says is left ahead by whatever is neither refused nor a
write of this receipt alone. -/
theorem append_overtakes (level : ledger.writer.device.length = ledger.bytesWritten)
    (accepted : ¬call.Refused) (more : ledger.writer.buffer = [] → ¬call.Taken) :
    (ledger.append call).1.Ahead := by
  have grows := @BufWriter.writeAndFlush_device_lt _ _ ledger.writer _ call.outcomes
    (receipt_fits call.receipt) (receipt_nonempty call.receipt) (Bool.not_eq_true _ ▸ accepted)
  simp only [Ahead]
  cases done : (ledger.writer.writeAndFlush bufCapacity call.receipt.bytes call.outcomes).done with
  | false =>
      rw [append, done]
      exact level ▸ grows
  | true =>
      have held : 0 < ledger.writer.buffer.length := by
        apply List.length_pos_iff.mpr
        intro empty
        apply more empty
        rw [AppendCall.Taken, ← call.receipt.size,
          ← BufWriter.writeAndFlush_takes (receipt_fits call.receipt) empty, done]
      rw [append, done, BufWriter.writeAndFlush_done (receipt_fits call.receipt) done]
      simp only [Bool.not_true, Bool.false_eq_true, if_false, List.length_append,
        call.receipt.size]
      omega

/-! ## Runs of appends -/

theorem run_ok {after : BufferedLedger} {offset : Nat}
    (appended : ledger.append call = (after, .ok offset)) :
    ledger.run (call :: calls) =
      ((after.run calls).1, (call.receipt, offset) :: (after.run calls).2) := by
  rw [run, appended]

theorem run_error {error : LedgerError} (failed : (ledger.append call).2 = .error error) :
    ledger.run (call :: calls) = (ledger.append call).1.run calls := by
  rw [run]
  split
  next after offset appended =>
    rw [appended] at failed
    nomatch failed
  next after _ appended => rw [appended]

/-- The ledger behind one more append. -/
theorem run_cons_fst : (ledger.run (call :: calls)).1 = ((ledger.append call).1.run calls).1 := by
  rw [run]
  split
  next after offset appended => rw [appended]
  next after _ appended => rw [appended]

theorem run_append (first second : List AppendCall) (ledger : BufferedLedger) :
    ledger.run (first ++ second) =
      (((ledger.run first).1.run second).1,
        (ledger.run first).2 ++ ((ledger.run first).1.run second).2) := by
  induction first generalizing ledger with
  | nil => rfl
  | cons call rest inductionHypothesis =>
      rw [List.cons_append, run, run]
      split
      · rw [inductionHypothesis]
        rfl
      · exact inductionHypothesis _

theorem run_ahead (ahead : ledger.Ahead) : (ledger.run calls).1.Ahead := by
  induction calls generalizing ledger with
  | nil => exact ahead
  | cons call rest inductionHypothesis =>
      rw [run_cons_fst]
      exact inductionHypothesis (append_ahead ahead)

/-- Appends that go through, on a ledger with nothing left over. -/
theorem run_taken (empty : ledger.writer.buffer = []) (taken : ∀ call ∈ calls, call.Taken) :
    ledger.run calls =
      ({ writer :=
          { device := ledger.writer.device ++ encode (calls.map AppendCall.receipt), buffer := [] }
         bytesWritten := ledger.bytesWritten + receiptBytes * calls.length },
        (calls.map AppendCall.receipt).zip
          ((List.range calls.length).map fun index =>
            ledger.bytesWritten + receiptBytes * index)) := by
  induction calls generalizing ledger with
  | nil =>
      obtain ⟨⟨device, buffer⟩, bytesWritten⟩ := ledger
      cases empty
      simp [run, encode]
  | cons call rest inductionHypothesis =>
      have first := append_taken empty (taken call List.mem_cons_self)
      have later := fun other member => taken other (List.mem_cons_of_mem call member)
      have shifted : ∀ index : Nat, ledger.bytesWritten + receiptBytes + receiptBytes * index =
          ledger.bytesWritten + receiptBytes * (index + 1) := fun index => by ring
      rw [run_ok first, inductionHypothesis rfl later]
      simp only [List.map_cons, encode, List.flatMap_cons, List.append_assoc, shifted,
        List.length_cons, List.range_succ_eq_map, List.map_map, Nat.mul_zero, Nat.add_zero,
        List.zip_cons_cons]
      rfl

theorem run_refused (refused : ∀ call ∈ calls, call.Refused) :
    (ledger.run calls).1.writer.device = ledger.writer.device ∧ (ledger.run calls).2 = [] := by
  induction calls generalizing ledger with
  | nil => exact ⟨rfl, rfl⟩
  | cons call rest inductionHypothesis =>
      obtain ⟨same, _, _, failed⟩ :=
        @append_refused ledger call (refused call List.mem_cons_self)
      obtain ⟨unchanged, nothing⟩ := @inductionHypothesis (ledger.append call).1
        (fun other member => refused other (List.mem_cons_of_mem call member))
      rw [run_error failed]
      exact ⟨unchanged.trans same, nothing⟩

/-- The bytes of the acknowledged receipts are counted, and no others. -/
theorem run_bytesWritten :
    (ledger.run calls).1.bytesWritten =
      ledger.bytesWritten + receiptBytes * (ledger.run calls).2.length := by
  induction calls generalizing ledger with
  | nil => rfl
  | cons call rest inductionHypothesis =>
      cases appended : ledger.append call with
      | mk after result =>
          have counted := appended
          rw [append] at counted
          split at counted
          · cases counted
            rw [run_error (congrArg Prod.snd appended), appended, inductionHypothesis]
          · cases counted
            rw [run_ok appended]
            simp only [inductionHypothesis, List.length_cons]
            ring

/-- A run that ends level has refused everything from the first append on that left something
over. -/
theorem refused_of_level (level : ledger.writer.device.length = ledger.bytesWritten)
    (holds : ledger.writer.buffer ≠ []) (ends : ¬(ledger.run calls).1.Ahead) :
    ∀ call ∈ calls, call.Refused := by
  induction calls generalizing ledger with
  | nil => nofun
  | cons call rest inductionHypothesis =>
      rw [run_cons_fst] at ends
      have refused : call.Refused := by
        by_contra accepted
        exact ends (run_ahead (append_overtakes level accepted fun empty => absurd empty holds))
      obtain ⟨same, held, counter, _⟩ := @append_refused ledger call refused
      rw [← same, ← counter] at level
      intro other member
      rcases List.mem_cons.mp member with rfl | later
      · exact refused
      · exact inductionHypothesis level held ends other later

theorem taken_refused_of_level (level : ledger.writer.device.length = ledger.bytesWritten)
    (empty : ledger.writer.buffer = []) (ends : ¬(ledger.run calls).1.Ahead) :
    ∃ count, (∀ call ∈ calls.take count, call.Taken) ∧
      ∀ call ∈ calls.drop count, call.Refused := by
  induction calls generalizing ledger with
  | nil => exact ⟨0, nofun, nofun⟩
  | cons call rest inductionHypothesis =>
      by_cases taken : call.Taken
      · have first := append_taken empty taken
        rw [run_cons_fst, first] at ends
        have level : (ledger.writer.device ++ call.receipt.bytes).length =
            ledger.bytesWritten + receiptBytes := by
          rw [List.length_append, level, call.receipt.size]
        obtain ⟨count, front, back⟩ := inductionHypothesis level rfl ends
        refine ⟨count + 1, ?_, back⟩
        intro other member
        rcases List.mem_cons.mp member with rfl | later
        · exact taken
        · exact front other later
      · refine ⟨0, nofun, ?_⟩
        have refused : call.Refused := by
          by_contra accepted
          rw [run_cons_fst] at ends
          exact ends (run_ahead (append_overtakes level accepted fun _ => taken))
        obtain ⟨same, held, counter, _⟩ := @append_refused ledger call refused
        rw [run_cons_fst] at ends
        rw [← same, ← counter] at level
        intro other member
        rcases List.mem_cons.mp member with rfl | later
        · exact refused
        · exact refused_of_level level held ends other later

/-- Failed appends leave no trace exactly where none of them put a byte into the file and no append
behind the first of them does. -/
theorem faithful_iff (file : List UInt8) (calls : List AppendCall) :
    Faithful file calls ↔
      ∃ count, (∀ call ∈ calls.take count, call.Taken) ∧
        ∀ call ∈ calls.drop count, call.Refused := by
  constructor
  · rintro ⟨written, _⟩
    apply @taken_refused_of_level (openFile file) calls rfl rfl
    have length := congrArg List.length written
    rw [List.length_append, encode_length, List.length_map] at length
    rw [Ahead, length, run_bytesWritten, openFile]
    exact Nat.lt_irrefl _
  · rintro ⟨count, taken, refused⟩
    have front := @run_taken (openFile file) (calls.take count) rfl taken
    obtain ⟨unchanged, nothing⟩ :=
      @run_refused ((openFile file).run (calls.take count)).1 (calls.drop count) refused
    have whole := run_append (calls.take count) (calls.drop count) (openFile file)
    rw [List.take_append_drop, nothing, List.append_nil] at whole
    have device : ((openFile file).run calls).1.writer.device =
        file ++ encode ((calls.take count).map AppendCall.receipt) := by
      rw [whole]
      exact unchanged.trans (congrArg (·.1.writer.device) front)
    have acknowledged : ((openFile file).run calls).2 =
        ((calls.take count).map AppendCall.receipt).zip
          ((List.range (calls.take count).length).map fun index =>
            file.length + receiptBytes * index) := by
      rw [whole, front]
      rfl
    have sizes : ((calls.take count).map AppendCall.receipt).length =
        ((List.range (calls.take count).length).map fun index =>
          file.length + receiptBytes * index).length := by
      rw [List.length_map, List.length_map, List.length_range]
    rw [Faithful, device, acknowledged]
    constructor
    · rw [List.map_fst_zip (Nat.le_of_eq sizes)]
    · rw [List.map_snd_zip (Nat.le_of_eq sizes.symm), List.length_zip, sizes, Nat.min_self,
        List.length_map, List.length_range]

/-- A receipt whose append failed stands in the file, and the offset of the next one is that of
the failed one. -/
theorem append_keeps_failed :
    ((openFile []).append ⟨Ledger.blank, [.failed]⟩).2 = .error .io ∧
      (openFile []).run [⟨Ledger.blank, [.failed]⟩, ⟨Ledger.quick, []⟩] =
        ({ writer := { device := encode [Ledger.blank, Ledger.quick], buffer := [] }
           bytesWritten := 64 }, [(Ledger.quick, 0)]) ∧
      ¬Faithful [] [⟨Ledger.blank, [.failed]⟩, ⟨Ledger.quick, []⟩] := by
  decide

end BufferedLedger

end KairosEngine.Daemon
