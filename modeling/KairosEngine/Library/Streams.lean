import Mathlib.Data.List.Basic

/-!
# Streams, events and what has run

A host issues operations to streams.  A stream runs its operations in the order of issue,
and a wait runs only after the operation its event was recorded at.  Apart from that the
device may run what has been issued in any order.
-/

namespace KairosEngine.Library

universe u v

/-- An operation of a stream.  A record and a wait do no work; a wait names the ticket of
a record. -/
structure Issued (Stream : Type u) (Work : Type v) where
  stream : Stream
  work : Option Work
  after : Option Nat

/-- The operations in the order of issue, which numbers them, and the numbers of those
that ran, in the order they did. -/
structure Device (Stream : Type u) (Work : Type v) where
  log : List (Issued Stream Work)
  ran : List Nat

namespace Device

variable {Stream : Type u} {Work : Type v}

def empty : Device Stream Work where
  log := []
  ran := []

/-- The number of the next operation. -/
def ticket (device : Device Stream Work) : Nat := device.log.length

def issue (device : Device Stream Work) (operation : Issued Stream Work) : Device Stream Work :=
  { device with log := device.log ++ [operation] }

def launch (device : Device Stream Work) (stream : Stream) (work : Work) : Device Stream Work :=
  device.issue { stream, work := some work, after := none }

/-- An event recorded here is the ticket of this operation. -/
def record (device : Device Stream Work) (stream : Stream) : Device Stream Work :=
  device.issue { stream, work := none, after := none }

/-- A wait for an event that was never recorded passes at once. -/
def wait (device : Device Stream Work) (stream : Stream) (event : Option Nat) :
    Device Stream Work :=
  device.issue { stream, work := none, after := event }

/-- The stream has run everything up to this operation, and its wait is over. -/
def runnable [DecidableEq Stream] (device : Device Stream Work) (index : Nat) : Bool :=
  match device.log[index]? with
  | some operation =>
      decide (index ∉ device.ran) &&
        ((List.range index).all fun earlier =>
          device.log[earlier]?.all (fun other => decide (other.stream ≠ operation.stream)) ||
            decide (earlier ∈ device.ran)) &&
        operation.after.all fun event => decide (event ∈ device.ran)
  | none => false

def run (device : Device Stream Work) (index : Nat) : Device Stream Work :=
  { device with ran := device.ran ++ [index] }

/-- What ran was issued, and everything it had to follow ran too. -/
structure Causal (device : Device Stream Work) : Prop where
  inside : ∀ index ∈ device.ran, index < device.log.length
  fifo : ∀ index ∈ device.ran, ∀ earlier < index, ∀ first second,
    device.log[earlier]? = some first → device.log[index]? = some second →
      first.stream = second.stream → earlier ∈ device.ran

theorem causal_empty : Causal (empty : Device Stream Work) where
  inside := fun _ member => absurd member List.not_mem_nil
  fifo := fun _ member => absurd member List.not_mem_nil

variable {device : Device Stream Work}

theorem log_issue_of_lt {operation : Issued Stream Work} {index : Nat}
    (issued : index < device.log.length) :
    (device.issue operation).log[index]? = device.log[index]? :=
  List.getElem?_append_left issued

theorem Causal.issue (causal : Causal device) (operation : Issued Stream Work) :
    Causal (device.issue operation) := by
  constructor
  · intro index member
    have issued := causal.inside index member
    rw [Device.issue, List.length_append]
    exact Nat.lt_add_right 1 issued
  · intro index member earlier before first second atFirst atSecond same
    have issued := causal.inside index member
    rw [log_issue_of_lt (Nat.lt_trans before issued)] at atFirst
    rw [log_issue_of_lt issued] at atSecond
    exact causal.fifo index member earlier before first second atFirst atSecond same

theorem Causal.append (causal : Causal device) (operations : List (Issued Stream Work)) :
    Causal { device with log := device.log ++ operations } := by
  induction operations generalizing device with
  | nil => simpa using causal
  | cons operation rest inductionHypothesis =>
      have later := inductionHypothesis (causal.issue operation)
      simpa only [Device.issue, List.append_assoc, List.singleton_append] using later

theorem runnable_issued [DecidableEq Stream] {index : Nat}
    (ready : device.runnable index = true) : index < device.log.length := by
  unfold runnable at ready
  cases present : device.log[index]? with
  | none =>
      rw [present] at ready
      cases ready
  | some operation => exact (List.getElem?_eq_some_iff.mp present).1

theorem runnable_fifo [DecidableEq Stream] {index earlier : Nat} {first second : Issued Stream Work}
    (ready : device.runnable index = true) (before : earlier < index)
    (atFirst : device.log[earlier]? = some first) (atSecond : device.log[index]? = some second)
    (same : first.stream = second.stream) : earlier ∈ device.ran := by
  simp only [runnable, atSecond, Bool.and_eq_true, List.all_eq_true, List.mem_range,
    Bool.or_eq_true, decide_eq_true_eq] at ready
  rcases ready.1.2 earlier before with elsewhere | ran
  · simp only [atFirst, Option.all_some, decide_eq_true_eq] at elsewhere
    exact absurd same elsewhere
  · exact ran

theorem Causal.run [DecidableEq Stream] (causal : Causal device) {index : Nat}
    (ready : device.runnable index = true) : Causal (device.run index) := by
  constructor
  · intro other member
    rcases List.mem_append.mp member with before | now
    · exact causal.inside other before
    · rw [List.mem_singleton.mp now]
      exact @runnable_issued _ _ device _ index ready
  · intro other member earlier before first second atFirst atSecond same
    rcases List.mem_append.mp member with past | now
    · exact List.mem_append_left _
        (causal.fifo other past earlier before first second atFirst atSecond same)
    · obtain rfl := List.mem_singleton.mp now
      exact List.mem_append_left _ (runnable_fifo ready before atFirst atSecond same)

/-! ## The latest operation of a kind -/

/-- The operation has a work of this kind, and none issued behind it does. -/
structure Latest (device : Device Stream Work) (kind : Work → Bool) (index : Nat)
    (operation : Issued Stream Work) : Prop where
  present : device.log[index]? = some operation
  fits : operation.work.any kind = true
  last : ∀ later other, index < later → device.log[later]? = some other →
    other.work.any kind = false

variable {kind : Work → Bool} {index : Nat} {operation : Issued Stream Work}

theorem latest_issue (fits : operation.work.any kind = true) :
    Latest (device.issue operation) kind device.ticket operation := by
  refine ⟨by simp [Device.issue, ticket], fits, ?_⟩
  intro later other behind there
  have inside := (List.getElem?_eq_some_iff.mp there).1
  rw [Device.issue, List.length_append, List.length_singleton] at inside
  rw [ticket] at behind
  omega

/-- More was issued, none of it of this kind. -/
def Extends (kind : Work → Bool) (device after : Device Stream Work) : Prop :=
  ∃ operations, after = { device with log := device.log ++ operations } ∧
    ∀ operation ∈ operations, operation.work.any kind = false

theorem Extends.refl : Extends kind device device :=
  ⟨[], by rw [List.append_nil], fun _ member => absurd member List.not_mem_nil⟩

theorem extends_issue (other : operation.work.any kind = false) :
    Extends kind device (device.issue operation) := by
  refine ⟨[operation], rfl, ?_⟩
  intro next member
  rw [List.mem_singleton.mp member]
  exact other

variable {after final : Device Stream Work}

theorem Extends.trans (first : Extends kind device after) (second : Extends kind after final) :
    Extends kind device final := by
  obtain ⟨early, rfl, earlyOther⟩ := first
  obtain ⟨late, rfl, lateOther⟩ := second
  refine ⟨early ++ late, by rw [List.append_assoc], ?_⟩
  intro next member
  rcases List.mem_append.mp member with inEarly | inLate
  · exact earlyOther next inEarly
  · exact lateOther next inLate

theorem Extends.present (grows : Extends kind device after)
    (present : device.log[index]? = some operation) : after.log[index]? = some operation := by
  obtain ⟨operations, rfl, _⟩ := grows
  rw [List.getElem?_append_left (List.getElem?_eq_some_iff.mp present).1, present]

theorem Extends.ran (grows : Extends kind device after) : after.ran = device.ran := by
  obtain ⟨operations, rfl, _⟩ := grows
  rfl

theorem Extends.latest (grows : Extends kind device after)
    (latest : Latest device kind index operation) : Latest after kind index operation := by
  refine ⟨grows.present latest.present, latest.fits, ?_⟩
  obtain ⟨operations, rfl, others⟩ := grows
  intro later other behind there
  by_cases old : later < device.log.length
  · rw [List.getElem?_append_left old] at there
    exact latest.last later other behind there
  · rw [List.getElem?_append_right (Nat.le_of_not_lt old)] at there
    exact others other (List.mem_of_getElem? there)

end Device

end KairosEngine.Library
