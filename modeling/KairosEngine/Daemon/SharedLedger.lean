import Mathlib.Data.List.Induction
import KairosEngine.Library.Loop
import KairosEngine.Daemon.PouwLedger

/-!
# Several handles on one ledger file

`append` writes at the end of the file, whoever wrote there last, and takes the offset that it
returns from a length that the handle keeps for itself.
-/

namespace KairosEngine.Daemon

open KairosEngine.Library

universe u

/-- What one handle sees of `len_bytes`. -/
def Ledger.lenBytes (ledger : Ledger) : Nat := ledger.bytesWritten

structure SharedLedger (Handle : Type u) where
  file : List UInt8
  bytesWritten : Handle → Nat

inductive LedgerCall (Handle : Type u)
  | openFile (handle : Handle)
  | append (handle : Handle) (receipt : SpinorReceipt)

namespace SharedLedger

variable {Handle : Type u}

/-- The ledger as one of the handles has it. -/
def ledger (shared : SharedLedger Handle) (handle : Handle) : Ledger where
  file := shared.file
  bytesWritten := shared.bytesWritten handle

/-- Every handle is opened on the file as it is; one that comes later opens again. -/
def start (file : List UInt8) : SharedLedger Handle where
  file := file
  bytesWritten _ := (Ledger.openFile file).bytesWritten

variable [DecidableEq Handle]

/-- A handle leaves the ledger behind as it now has it. -/
def put (shared : SharedLedger Handle) (handle : Handle) (ledger : Ledger) :
    SharedLedger Handle where
  file := ledger.file
  bytesWritten := Function.update shared.bytesWritten handle ledger.bytesWritten

def step : LedgerCall Handle → SharedLedger Handle → SharedLedger Handle
  | .openFile handle, shared => shared.put handle (Ledger.openFile shared.file)
  | .append handle receipt, shared => shared.put handle ((shared.ledger handle).append receipt).1

def run (file : List UInt8) (calls : List (LedgerCall Handle)) : SharedLedger Handle :=
  serveAll step calls (start file)

theorem run_append (file : List UInt8) (seen rest : List (LedgerCall Handle)) :
    run file (seen ++ rest) = serveAll step rest (run file seen) :=
  serveAll_append step seen rest (start file)

/-! ## The bytes in the file -/

theorem step_file (call : LedgerCall Handle) (shared : SharedLedger Handle) :
    shared.file <+: (step call shared).file := by
  cases call with
  | openFile handle => exact List.prefix_rfl
  | append handle receipt => exact List.prefix_append _ _

theorem serveAll_file (calls : List (LedgerCall Handle)) (shared : SharedLedger Handle) :
    shared.file <+: (serveAll step calls shared).file := by
  apply @serveAll_preserves _ _ step fun between => shared.file <+: between.file
  · intro call between grown
    exact grown.trans (step_file call between)
  · exact List.prefix_rfl

/-- The record of an `append` lies where the file ended before it, from then on. -/
theorem run_record (file : List UInt8) (seen rest : List (LedgerCall Handle)) (handle : Handle)
    (receipt : SpinorReceipt) :
    ((run file (seen ++ .append handle receipt :: rest)).file.drop
      (run file seen).file.length).take receiptBytes = receipt.bytes := by
  obtain ⟨later, grown⟩ :=
    serveAll_file rest (step (.append handle receipt) (run file seen))
  have written : (step (.append handle receipt) (run file seen)).file =
      (run file seen).file ++ receipt.bytes := rfl
  rw [run_append, serveAll, ← grown, written, List.append_assoc, List.drop_left,
    ← receipt.size, List.take_left]

/-! ## What a handle misses -/

/-- The appends of other handles since a handle was opened last. -/
def missed (handle : Handle) : List (LedgerCall Handle) → Nat :=
  List.foldl
    (fun count call =>
      match call with
      | .openFile opened => if opened = handle then 0 else count
      | .append writer _ => if writer = handle then count else count + 1) 0

theorem missed_snoc_openFile (handle opened : Handle) (calls : List (LedgerCall Handle)) :
    missed handle (calls ++ [.openFile opened]) =
      if opened = handle then 0 else missed handle calls := by
  simp only [missed, List.foldl_append, List.foldl_cons, List.foldl_nil]

theorem missed_snoc_append (handle writer : Handle) (receipt : SpinorReceipt)
    (calls : List (LedgerCall Handle)) :
    missed handle (calls ++ [.append writer receipt]) =
      if writer = handle then missed handle calls else missed handle calls + 1 := by
  simp only [missed, List.foldl_append, List.foldl_cons, List.foldl_nil]

/-- A handle lags behind the file by the records that others have appended. -/
theorem run_lag (file : List UInt8) (calls : List (LedgerCall Handle)) (handle : Handle) :
    ((run file calls).ledger handle).lenBytes + receiptBytes * missed handle calls =
      (run file calls).file.length := by
  induction calls using List.reverseRecOn with
  | nil => rfl
  | append_singleton calls call inductionHypothesis =>
      have stepped : run file (calls ++ [call]) = step call (run file calls) :=
        run_append file calls [call]
      rw [stepped]
      cases call with
      | openFile opened =>
          rw [missed_snoc_openFile]
          by_cases own : opened = handle
          · subst own
            simp only [step, put, ledger, Ledger.lenBytes, Ledger.openFile, Function.update_self,
              if_true, Nat.mul_zero, Nat.add_zero]
          · simp only [step, put, ledger, Ledger.lenBytes, Ledger.openFile,
              Function.update_of_ne (Ne.symm own), if_neg own]
            exact inductionHypothesis
      | append writer receipt =>
          have longer : (step (.append writer receipt) (run file calls)).file.length =
              (run file calls).file.length + receiptBytes := by
            simp only [step, put, ledger, Ledger.append, List.length_append, receipt.size]
          rw [missed_snoc_append, longer, ← inductionHypothesis]
          by_cases own : writer = handle
          · subst own
            simp only [step, put, ledger, Ledger.lenBytes, Ledger.append, Function.update_self,
              if_true]
            omega
          · simp only [step, put, ledger, Ledger.lenBytes, Ledger.append,
              Function.update_of_ne (Ne.symm own), if_neg own]
            rw [Nat.mul_succ, Nat.add_assoc]

/-! ## Offsets and lengths of a whole run -/

/-- The offset is the place of the record, and the handle's length is then the length of the
file. -/
structure Exact (shared : SharedLedger Handle) (handle : Handle) (receipt : SpinorReceipt) :
    Prop where
  offset : ((shared.ledger handle).append receipt).2 = shared.file.length
  length : ((step (.append handle receipt) shared).ledger handle).lenBytes =
    (step (.append handle receipt) shared).file.length

/-- What the calls on a file promise: every append is exact, and no length is ever above that of
the file. -/
structure Truthful (file : List UInt8) (calls : List (LedgerCall Handle)) : Prop where
  exact : ∀ seen handle receipt, seen ++ [.append handle receipt] <+: calls →
    (run file seen).Exact handle receipt
  bounded : ∀ seen, seen <+: calls → ∀ handle,
    ((run file seen).ledger handle).lenBytes ≤ (run file seen).file.length

theorem lenBytes_le (file : List UInt8) (calls : List (LedgerCall Handle)) (handle : Handle) :
    ((run file calls).ledger handle).lenBytes ≤ (run file calls).file.length :=
  run_lag file calls handle ▸ Nat.le_add_right _ _

theorem exact_iff (file : List UInt8) (calls : List (LedgerCall Handle)) (handle : Handle)
    (receipt : SpinorReceipt) :
    (run file calls).Exact handle receipt ↔ missed handle calls = 0 := by
  have lag := run_lag file calls handle
  have lagAfter := run_lag file (calls ++ [.append handle receipt]) handle
  rw [missed_snoc_append, if_pos rfl, run_append] at lagAfter
  have positive : 0 < receiptBytes := Nat.succ_pos 63
  constructor
  · intro exact
    have level : ((run file calls).ledger handle).lenBytes = (run file calls).file.length :=
      exact.offset
    rw [level] at lag
    have nothing : receiptBytes * missed handle calls = 0 := by omega
    exact (Nat.mul_eq_zero.mp nothing).resolve_left (Nat.ne_of_gt positive)
  · intro none
    rw [none] at lag lagAfter
    exact ⟨lag, lagAfter⟩

/-- The calls are truthful exactly when no handle appends after another one has, since it was
opened. -/
theorem append_truthful_iff (file : List UInt8) (calls : List (LedgerCall Handle)) :
    Truthful file calls ↔
      ∀ seen handle receipt, seen ++ [.append handle receipt] <+: calls →
        missed handle seen = 0 := by
  constructor
  · intro truthful seen handle receipt front
    exact (exact_iff file seen handle receipt).mp (truthful.exact seen handle receipt front)
  · intro level
    refine ⟨fun seen handle receipt front => ?_, fun seen _ handle => lenBytes_le file seen handle⟩
    exact (exact_iff file seen handle receipt).mpr (level seen handle receipt front)

/-- A receipt that differs from a blank one in its rank. -/
def ranked : SpinorReceipt where
  bytes := List.replicate 61 0 ++ [1, 0, 0xA5]
  size := rfl

/-- Two handles on an empty file append one receipt each. -/
def bothAppend : List (LedgerCall Bool) := [.append false Ledger.blank, .append true ranked]

/-- The second of two handles on an empty file returns the offset of the other one's record, and its
length is that of half the file. -/
theorem append_misplaces :
    (((run [] [.append false Ledger.blank]).ledger true).append ranked).2 = 0 ∧
      ((run [] bothAppend).file.drop 0).take receiptBytes ≠ ranked.bytes ∧
      ((run [] bothAppend).file.drop 64).take receiptBytes = ranked.bytes ∧
      ((run [] bothAppend).ledger true).lenBytes = 64 ∧ (run [] bothAppend).file.length = 128 ∧
      ¬ Truthful [] bothAppend := by
  refine ⟨rfl, by decide, by decide, rfl, rfl, fun truthful => ?_⟩
  have level := truthful.exact [.append false Ledger.blank] true ranked List.prefix_rfl
  exact absurd level.offset (by decide)

end SharedLedger

end KairosEngine.Daemon
