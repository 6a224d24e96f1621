import KairosEngine.Library.Loop
import KairosEngine.Library.Streams

/-!
# The pinned staging ring

`moe_stage` puts an expert's codes into one of four pinned buffers and queues the copy to the
device behind it.  The event of the buffer, where it could be created, tells when that copy has
run.  Host calls are serial; the device runs what was queued between them and while they wait.
-/

namespace KairosEngine.Cuda

open KairosEngine.Library Device

universe u

/-- Where a queued copy reads. -/
inductive CopySource
  | arena
  | pinned (address : Nat)
  deriving DecidableEq

/-- What `moe_stage` queues.  A copy of codes carries the bytes of the expert it is for. -/
inductive StageWork
  | codes (source : CopySource) (bytes : List UInt8)
  | bscale (e : Nat)
  deriving DecidableEq

/-- `MOE_PIN_N`. -/
abbrev moePinN : Nat := 4

/-- What a process fixes before the first call. -/
structure PinEnv where
  /-- `moe_pin_on`. -/
  pinOn : Bool
  /-- Whether `cudaFreeHost` waits until everything queued has run. -/
  freeWaits : Bool

/-- What a copy out of a pinned buffer was for, and what it found there. -/
structure PinnedRead where
  asked : List UInt8
  found : Option (List UInt8)
  deriving DecidableEq

structure PinRing (Stream : Type u) where
  pin : Fin moePinN → Option Nat
  /-- None where the event was never created; then the last record. -/
  pinEv : Fin moePinN → Option (Option Nat)
  pinCap : Nat
  pinI : Fin moePinN
  /-- The pinned allocations; none at an address that is not allocated. -/
  memory : Nat → Option (List UInt8)
  allocated : Nat
  device : Device Stream StageWork
  reads : List PinnedRead

/-- The members of `sp_frob_packed_tensor` that `moe_stage` reads. -/
structure PackedTensor where
  codes : Nat → UInt8
  rowOff : Nat → Nat
  hasBscale : Bool

/-- What the runtime answers while the ring grows, and what the device runs in the meantime. -/
structure PinGrowth where
  malloc : Fin moePinN → Bool
  create : Fin moePinN → Bool
  meanwhile : Fin moePinN → List Nat

/-- The arguments of a `moe_stage` call, with what the runtime answers to it. -/
structure StageCall (Stream : Type u) where
  pt : PackedTensor
  e : Nat
  rowsE : Nat
  bytesE : Nat
  bsn : Nat
  st : Stream
  /-- `g_moe_arena_pinned == 1`. -/
  arenaPinned : Bool
  growth : PinGrowth
  meanwhile : List Nat
  codesOk : Bool
  bscaleOk : Bool

/-- `pt->codes + base`, as far as the expert goes. -/
def StageCall.bytes {Stream : Type u} (call : StageCall Stream) : List UInt8 :=
  (List.range call.bytesE).map fun offset =>
    call.pt.codes (call.pt.rowOff (call.e * call.rowsE) + offset)

namespace PinRing

variable {Stream : Type u}

def boot : PinRing Stream where
  pin := fun _ => none
  pinEv := fun _ => none
  pinCap := 0
  pinI := 0
  memory := fun _ => none
  allocated := 0
  device := Device.empty
  reads := []

/-! ## The device -/

/-- What the copy of this number finds, if it reads a pinned buffer. -/
def readsOf (ring : PinRing Stream) (index : Nat) : List PinnedRead :=
  match ring.device.log[index]?.bind (·.work) with
  | some (.codes (.pinned address) bytes) =>
      [{ asked := bytes, found := (ring.memory address).map (·.take bytes.length) }]
  | _ => []

/-- The device runs one operation. -/
def complete [DecidableEq Stream] (index : Nat) (ring : PinRing Stream) :
    Option (PinRing Stream) :=
  if ring.device.runnable index then
    some { ring with device := ring.device.run index, reads := ring.reads ++ ring.readsOf index }
  else
    none

def progress [DecidableEq Stream] (indices : List Nat) (ring : PinRing Stream) :
    Option (PinRing Stream) :=
  runEach complete indices ring

/-! ## What the host asks of the runtime -/

/-- `if (g_moe_pin_ev[slot]) cudaEventSynchronize(g_moe_pin_ev[slot])`, which an event that was
never recorded lets pass. -/
def eventSynchronize (slot : Fin moePinN) (ring : PinRing Stream) : Option (PinRing Stream) :=
  match ring.pinEv slot with
  | some (some event) => if event ∈ ring.device.ran then some ring else none
  | _ => some ring

def idle (device : Device Stream StageWork) : Bool :=
  (List.range device.log.length).all fun index => decide (index ∈ device.ran)

def freeHost (env : PinEnv) (slot : Fin moePinN) (ring : PinRing Stream) :
    Option (PinRing Stream) :=
  match ring.pin slot with
  | none => some ring
  | some address =>
      if env.freeWaits && !idle ring.device then
        none
      else
        some
          { ring with
            pin := Function.update ring.pin slot none
            memory := Function.update ring.memory address none }

def mallocHost (slot : Fin moePinN) (bytes : Nat) (ring : PinRing Stream) : PinRing Stream :=
  { ring with
    pin := Function.update ring.pin slot (some ring.allocated)
    memory := Function.update ring.memory ring.allocated (some (List.replicate bytes 0))
    allocated := ring.allocated + 1 }

theorem mallocHost_pin (slot : Fin moePinN) (bytes : Nat) (ring : PinRing Stream) :
    (ring.mallocHost slot bytes).pin = Function.update ring.pin slot (some ring.allocated) := rfl

def eventCreate (slot : Fin moePinN) (created : Bool) (ring : PinRing Stream) : PinRing Stream :=
  if ring.pinEv slot = none ∧ created = true then
    { ring with pinEv := Function.update ring.pinEv slot (some none) }
  else
    ring

/-- `memcpy` into the buffer of a slot; none where it would leave the buffer. -/
def memcpy (slot : Fin moePinN) (bytes : List UInt8) (ring : PinRing Stream) :
    Option (Nat × PinRing Stream) :=
  match ring.pin slot with
  | none => none
  | some address =>
      match ring.memory address with
      | none => none
      | some old =>
          if bytes.length ≤ old.length then
            some (address,
              { ring with
                memory := Function.update ring.memory address
                  (some (bytes ++ old.drop bytes.length)) })
          else
            none

def memcpyAsync (st : Stream) (work : StageWork) (accepted : Bool) (ring : PinRing Stream) :
    PinRing Stream × Bool :=
  if accepted then ({ ring with device := ring.device.launch st work }, true) else (ring, false)

/-- `if (g_moe_pin_ev[slot]) cudaEventRecord(g_moe_pin_ev[slot], st)`. -/
def eventRecord (slot : Fin moePinN) (st : Stream) (ring : PinRing Stream) : PinRing Stream :=
  match ring.pinEv slot with
  | none => ring
  | some _ =>
      { ring with
        pinEv := Function.update ring.pinEv slot (some (some ring.device.ticket))
        device := ring.device.record st }

/-! ## `moe_pin_ensure` -/

def pinSlots : List (Fin moePinN) := List.finRange moePinN

/-- One turn of the loop that empties the ring. -/
def release [DecidableEq Stream] (env : PinEnv) (growth : PinGrowth) (slot : Fin moePinN)
    (ring : PinRing Stream) : Option (PinRing Stream) :=
  ((ring.progress (growth.meanwhile slot)).bind (eventSynchronize slot)).bind (freeHost env slot)

/-- The loop that fills it; the slots before a refused one are freed again. -/
def allocate (env : PinEnv) (growth : PinGrowth) (bytes : Nat) :
    List (Fin moePinN) → List (Fin moePinN) → PinRing Stream → Option (PinRing Stream × Bool)
  | _, [], ring => some (ring, true)
  | before, slot :: rest, ring =>
      if growth.malloc slot then
        allocate env growth bytes (before ++ [slot]) rest
          ((ring.mallocHost slot bytes).eventCreate slot (growth.create slot))
      else
        (runEach (freeHost env) before ring).map fun emptied => (emptied, false)

/-- The ring has room for `bytes` in each slot. -/
def holds (ring : PinRing Stream) (bytes : Nat) : Prop :=
  bytes ≤ ring.pinCap ∧ (ring.pin 0).isSome = true

instance (ring : PinRing Stream) (bytes : Nat) : Decidable (ring.holds bytes) :=
  inferInstanceAs (Decidable (_ ∧ _))

/-- `moe_pin_ensure`, true where it returns 0. -/
def moePinEnsure [DecidableEq Stream] (env : PinEnv) (growth : PinGrowth) (bytes : Nat)
    (ring : PinRing Stream) : Option (PinRing Stream × Bool) :=
  if env.pinOn = false then
    some (ring, false)
  else if ring.holds bytes then
    some (ring, true)
  else
    (runEach (release env growth) pinSlots ring).bind fun emptied =>
      (allocate env growth bytes [] pinSlots { emptied with pinCap := 0 }).map fun filled =>
        if filled.2 then ({ filled.1 with pinCap := bytes }, true) else (filled.1, false)

/-! ## `moe_stage` -/

/-- The copy out of a slot, and the record behind it. -/
def queuePinned (call : StageCall Stream) (slot : Fin moePinN) (copied : Nat × PinRing Stream) :
    PinRing Stream × Bool :=
  match copied.2.memcpyAsync call.st (.codes (.pinned copied.1) call.bytes) call.codesOk with
  | (queued, true) => (queued.eventRecord slot call.st, true)
  | (queued, false) => (queued, false)

/-- The branch that goes through the ring. -/
def stageRing [DecidableEq Stream] (call : StageCall Stream) (ring : PinRing Stream) :
    Option (PinRing Stream × Bool) :=
  ((({ ring with pinI := ring.pinI + 1 }.progress call.meanwhile).bind
    (eventSynchronize ring.pinI)).bind (memcpy ring.pinI call.bytes)).map
      (queuePinned call ring.pinI)

/-- The codes, from the pinned arena, through the ring or from pageable memory. -/
def stageCodes [DecidableEq Stream] (env : PinEnv) (call : StageCall Stream)
    (ring : PinRing Stream) : Option (PinRing Stream × Bool) :=
  if call.arenaPinned then
    some (ring.memcpyAsync call.st (.codes .arena call.bytes) call.codesOk)
  else
    (ring.moePinEnsure env call.growth call.bytesE).bind fun ensured =>
      if ensured.2 then ensured.1.stageRing call
      else some (ensured.1.memcpyAsync call.st (.codes .arena call.bytes) call.codesOk)

/-- `moe_stage`, true where it returns 0. -/
def moeStage [DecidableEq Stream] (env : PinEnv) (call : StageCall Stream)
    (ring : PinRing Stream) : Option (PinRing Stream × Bool) :=
  (ring.stageCodes env call).map fun staged =>
    if staged.2 = true ∧ call.bsn ≠ 0 ∧ call.pt.hasBscale = true then
      staged.1.memcpyAsync call.st (.bscale call.e) call.bscaleOk
    else
      staged

end PinRing

/-- A call of the host, or an operation the device runs between two calls. -/
inductive PinStep (Stream : Type u)
  | stage (call : StageCall Stream)
  | run (index : Nat)

namespace PinRing

section Guard

variable {Stream : Type u}

def step [DecidableEq Stream] (env : PinEnv) :
    PinStep Stream → PinRing Stream → Option (PinRing Stream)
  | .stage call, ring => (ring.moeStage env call).map Prod.fst
  | .run index, ring => ring.complete index

/-- A copy of these bytes out of this allocation was queued as this number and has not run. -/
structure Queued (ring : PinRing Stream) (index : Nat) (operation : Issued Stream StageWork)
    (address : Nat) (bytes : List UInt8) : Prop where
  present : ring.device.log[index]? = some operation
  work : operation.work = some (.codes (.pinned address) bytes)
  waiting : index ∉ ring.device.ran

/-- No queued copy still has to read the buffer of the slot. -/
def Quiet (ring : PinRing Stream) (slot : Fin moePinN) : Prop :=
  ∀ index operation address bytes, ring.Queued index operation address bytes →
    ring.pin slot ≠ some address

/-- The slot has an event, or nothing is left to read its buffer. -/
def Guarded (ring : PinRing Stream) (slot : Fin moePinN) : Prop :=
  ring.pinEv slot = none → ring.Quiet slot

/-- The ring may grow: the free waits, or every slot is guarded. -/
def Releasable (env : PinEnv) (ring : PinRing Stream) : Prop :=
  env.freeWaits = true ∨ ∀ slot, ring.Guarded slot

/-- The ring may take another copy: the slot it reuses is guarded, or it may grow. -/
def Usable (env : PinEnv) (bytes : Nat) (ring : PinRing Stream) : Prop :=
  if ring.holds bytes then ring.Guarded ring.pinI else Releasable env ring

/-- Where a call goes through the ring, the ring may take another copy. -/
def GuardedStep (env : PinEnv) : PinStep Stream → PinRing Stream → Prop
  | .run _, _ => True
  | .stage call, ring =>
      call.arenaPinned = false → env.pinOn = true → Usable env call.bytesE ring

end Guard

/-! ## The invariant -/

section Sound

variable {Stream : Type u} {ring : PinRing Stream}

/-- A queued copy reads a buffer of the ring that holds what it was queued for, and the event of
the slot was last recorded behind it in its stream. -/
structure Backed (ring : PinRing Stream) (index : Nat) (operation : Issued Stream StageWork)
    (address : Nat) (bytes : List UInt8) (slot : Fin moePinN) : Prop where
  pinned : ring.pin slot = some address
  held : (ring.memory address).map (·.take bytes.length) = some bytes
  recorded : ∀ event, ring.pinEv slot = some event → ∃ ticket record, event = some ticket ∧
    index < ticket ∧ ring.device.log[ticket]? = some record ∧ record.stream = operation.stream

structure Sound (ring : PinRing Stream) : Prop where
  causal : ring.device.Causal
  faithful : ∀ read ∈ ring.reads, read.found = some read.asked
  fresh : ∀ slot address, ring.pin slot = some address → address < ring.allocated
  apart : ∀ slot other address, ring.pin slot = some address → ring.pin other = some address →
    slot = other
  backed : ∀ index operation address bytes, ring.Queued index operation address bytes →
    ∃ slot, ring.Backed index operation address bytes slot

/-- The capacity and the next slot say nothing about what is queued. -/
theorem Sound.set (sound : Sound ring) (pinCap : Nat) (pinI : Fin moePinN) :
    Sound { ring with pinCap := pinCap, pinI := pinI } := by
  refine ⟨sound.causal, sound.faithful, sound.fresh, sound.apart, ?_⟩
  intro index operation address bytes queued
  obtain ⟨slot, backed⟩ := sound.backed index operation address bytes
    ⟨queued.present, queued.work, queued.waiting⟩
  exact ⟨slot, backed.pinned, backed.held, backed.recorded⟩

theorem sound_boot : Sound (boot : PinRing Stream) where
  causal := causal_empty
  faithful := fun _ member => absurd member List.not_mem_nil
  fresh := fun _ _ pinned => nomatch pinned
  apart := fun _ _ _ pinned => nomatch pinned
  backed := fun _ _ _ _ queued => by cases queued.present

theorem eventSynchronize_same {slot : Fin moePinN} {after : PinRing Stream}
    (waited : eventSynchronize slot ring = some after) : ring = after := by
  unfold eventSynchronize at waited
  split at waited
  next => exact Option.some.inj (Option.ite_none_right_eq_some.mp waited).2
  next => exact Option.some.inj waited

theorem eventSynchronize_ran {slot : Fin moePinN} {after : PinRing Stream} {ticket : Nat}
    (waited : eventSynchronize slot ring = some after)
    (recorded : ring.pinEv slot = some (some ticket)) : ticket ∈ ring.device.ran := by
  rw [eventSynchronize, recorded] at waited
  exact (Option.ite_none_right_eq_some.mp waited).1

/-- Once the event of a guarded slot is over, nothing is left to read its buffer. -/
theorem Sound.quiet (sound : Sound ring) {slot : Fin moePinN} (guarded : ring.Guarded slot)
    {after : PinRing Stream} (waited : eventSynchronize slot ring = some after) :
    ring.Quiet slot := by
  cases there : ring.pinEv slot with
  | none => exact guarded there
  | some event =>
      intro index operation address bytes queued pinned
      obtain ⟨owner, backed⟩ := sound.backed index operation address bytes queued
      obtain rfl := sound.apart slot owner address pinned backed.pinned
      obtain ⟨ticket, record, rfl, before, recorded, stream⟩ := backed.recorded event there
      have elapsed := eventSynchronize_ran waited there
      apply queued.waiting
      exact sound.causal.fifo ticket elapsed index before operation record queued.present recorded
        stream.symm

/-! ## The device runs -/

/-- The device ran some of what is queued; the host did nothing. -/
structure Later (ring after : PinRing Stream) : Prop where
  pin : after.pin = ring.pin
  pinEv : after.pinEv = ring.pinEv
  log : after.device.log = ring.device.log
  ran : ∀ index ∈ ring.device.ran, index ∈ after.device.ran

theorem Later.refl : Later ring ring := ⟨rfl, rfl, rfl, fun _ => id⟩

theorem Later.queued {after : PinRing Stream} (later : Later ring after) {index address : Nat}
    {operation : Issued Stream StageWork} {bytes : List UInt8}
    (queued : after.Queued index operation address bytes) :
    ring.Queued index operation address bytes :=
  ⟨later.log ▸ queued.present, queued.work, fun ran => queued.waiting (later.ran index ran)⟩

theorem Later.guarded {after : PinRing Stream} (later : Later ring after) {slot : Fin moePinN}
    (guarded : ring.Guarded slot) : after.Guarded slot := by
  intro missing index operation address bytes queued
  rw [later.pin]
  rw [later.pinEv] at missing
  exact guarded missing index operation address bytes (later.queued queued)

variable [DecidableEq Stream] {after : PinRing Stream}

theorem complete_later {index : Nat} (completed : complete index ring = some after) :
    Later ring after := by
  obtain ⟨_, same⟩ := Option.ite_none_right_eq_some.mp completed
  cases same
  exact ⟨rfl, rfl, rfl, fun _ ran => List.mem_append_left _ ran⟩

theorem progress_later {indices : List Nat} (progressed : ring.progress indices = some after) :
    Later ring after := by
  apply @runEach_preserves _ _ complete (Later ring) _ _ _ _ progressed Later.refl
  intro index middle next completed early
  have late := complete_later completed
  exact ⟨late.pin.trans early.pin, late.pinEv.trans early.pinEv, late.log.trans early.log,
    fun index ran => late.ran index (early.ran index ran)⟩

theorem Sound.complete {index : Nat} (sound : Sound ring)
    (completed : PinRing.complete index ring = some after) : Sound after := by
  have later := complete_later completed
  obtain ⟨ready, same⟩ := Option.ite_none_right_eq_some.mp completed
  cases same
  refine ⟨sound.causal.run ready, ?_, sound.fresh, sound.apart, ?_⟩
  · intro read member
    rcases List.mem_append.mp member with before | now
    · exact sound.faithful read before
    · unfold readsOf at now
      split at now
      next address bytes reading =>
        obtain ⟨operation, present, work⟩ := Option.bind_eq_some_iff.mp reading
        have waiting : index ∉ ring.device.ran := by
          simp only [runnable, present, Bool.and_eq_true, decide_eq_true_eq] at ready
          exact ready.1.1
        obtain ⟨slot, backed⟩ :=
          sound.backed index operation address bytes ⟨present, work, waiting⟩
        rw [List.mem_singleton.mp now]
        exact backed.held
      next => cases now
  · intro other operation address bytes queued
    obtain ⟨slot, backed⟩ := sound.backed other operation address bytes (later.queued queued)
    exact ⟨slot, backed.pinned, backed.held, backed.recorded⟩

theorem Sound.progress {indices : List Nat} (sound : Sound ring)
    (progressed : ring.progress indices = some after) : Sound after :=
  @runEach_preserves _ _ PinRing.complete Sound
    (fun _ _ _ completed before => before.complete completed) _ _ _ progressed sound

end Sound

/-! ## Buffers come and go -/

section Buffers

variable {Stream : Type u} {ring after : PinRing Stream} {env : PinEnv} {slot : Fin moePinN}

/-- The buffer of the slot is gone, and nothing else changed. -/
structure Freed (ring : PinRing Stream) (slot : Fin moePinN) (after : PinRing Stream) : Prop where
  pin : after.pin = Function.update ring.pin slot none
  pinEv : after.pinEv = ring.pinEv
  allocated : after.allocated = ring.allocated
  device : after.device = ring.device
  reads : after.reads = ring.reads
  memory : ∀ address, ring.pin slot ≠ some address → after.memory address = ring.memory address

theorem freeHost_freed (freed : freeHost env slot ring = some after) :
    Freed ring slot after ∧ (env.freeWaits = true → ring.Quiet slot) := by
  unfold freeHost at freed
  cases there : ring.pin slot with
  | none =>
      rw [there] at freed
      cases freed
      refine ⟨⟨?_, rfl, rfl, rfl, rfl, fun _ _ => rfl⟩, fun _ _ _ address _ _ pinned => ?_⟩
      · rw [← there, Function.update_eq_self]
      · rw [there] at pinned
        cases pinned
  | some buffer =>
      simp only [there] at freed
      obtain ⟨waited, same⟩ := Option.ite_none_left_eq_some.mp freed
      cases same
      refine ⟨⟨rfl, rfl, rfl, rfl, rfl, fun address other => ?_⟩, ?_⟩
      · have away : address ≠ buffer := fun same => other (there.trans (congrArg some same.symm))
        exact Function.update_of_ne away ..
      · intro waits index operation address bytes queued
        rw [waits, Bool.true_and, Bool.not_eq_true, Bool.not_eq_false', idle, List.all_eq_true]
          at waited
        have issued := (List.getElem?_eq_some_iff.mp queued.present).1
        have ran := of_decide_eq_true (waited index (List.mem_range.mpr issued))
        exact absurd ran queued.waiting

theorem Freed.pin_some (freed : Freed ring slot after) {other : Fin moePinN} {address : Nat}
    (pinned : after.pin other = some address) : other ≠ slot ∧ ring.pin other = some address := by
  rw [freed.pin] at pinned
  by_cases same : other = slot
  · rw [same, Function.update_self] at pinned
    cases pinned
  · exact ⟨same, by rwa [Function.update_of_ne same] at pinned⟩

theorem Freed.queued (freed : Freed ring slot after) {index address : Nat}
    {operation : Issued Stream StageWork} {bytes : List UInt8}
    (queued : after.Queued index operation address bytes) :
    ring.Queued index operation address bytes :=
  ⟨freed.device ▸ queued.present, queued.work, freed.device ▸ queued.waiting⟩

theorem Freed.guarded (freed : Freed ring slot after) {other : Fin moePinN}
    (guarded : ring.Guarded other) : after.Guarded other := by
  intro missing index operation address bytes queued pinned
  rw [freed.pinEv] at missing
  exact guarded missing index operation address bytes (freed.queued queued)
    (freed.pin_some pinned).2

theorem Sound.freed (sound : Sound ring) (freed : Freed ring slot after)
    (quiet : ring.Quiet slot) : Sound after := by
  refine ⟨?_, ?_, ?_, ?_, ?_⟩
  · rw [freed.device]
    exact sound.causal
  · rw [freed.reads]
    exact sound.faithful
  · intro other address pinned
    rw [freed.allocated]
    exact sound.fresh other address (freed.pin_some pinned).2
  · intro first second address atFirst atSecond
    exact sound.apart first second address (freed.pin_some atFirst).2 (freed.pin_some atSecond).2
  · intro index operation address bytes queued
    have before := freed.queued queued
    obtain ⟨owner, backed⟩ := sound.backed index operation address bytes before
    have other : owner ≠ slot := fun same =>
      quiet index operation address bytes before (same ▸ backed.pinned)
    have away := quiet index operation address bytes before
    refine ⟨owner, ?_, ?_, ?_⟩
    · rw [freed.pin, Function.update_of_ne other]
      exact backed.pinned
    · rw [freed.memory address away]
      exact backed.held
    · rw [freed.pinEv, freed.device]
      exact backed.recorded

/-- Nothing that is queued reads a pinned buffer. -/
def Silent (ring : PinRing Stream) : Prop :=
  ∀ index operation address bytes, ¬ ring.Queued index operation address bytes

theorem Sound.silent (sound : Sound ring) (empty : ∀ slot, ring.pin slot = none) :
    ring.Silent := by
  intro index operation address bytes queued
  obtain ⟨slot, backed⟩ := sound.backed index operation address bytes queued
  cases (empty slot).symm.trans backed.pinned

/-- With nothing queued only the buffers have to be told apart. -/
theorem Sound.of_silent (sound : Sound ring) (silent : ring.Silent)
    (device : after.device = ring.device) (reads : after.reads = ring.reads)
    (fresh : ∀ slot address, after.pin slot = some address → address < after.allocated)
    (apart : ∀ slot other address, after.pin slot = some address → after.pin other = some address →
      slot = other) : Sound after ∧ after.Silent := by
  have silentAfter : after.Silent := fun index operation address bytes queued =>
    silent index operation address bytes
      ⟨device ▸ queued.present, queued.work, device ▸ queued.waiting⟩
  refine ⟨⟨?_, ?_, fresh, apart, fun _ _ _ _ queued => absurd queued (silentAfter _ _ _ _)⟩,
    silentAfter⟩
  · rw [device]
    exact sound.causal
  · rw [reads]
    exact sound.faithful

theorem Sound.mallocHost (sound : Sound ring) (silent : ring.Silent) (slot : Fin moePinN)
    (bytes : Nat) : Sound (ring.mallocHost slot bytes) ∧ (ring.mallocHost slot bytes).Silent := by
  have cases_pin : ∀ other address, (ring.mallocHost slot bytes).pin other = some address →
      (other = slot ∧ address = ring.allocated) ∨ (ring.pin other = some address) := by
    intro other address pinned
    by_cases same : other = slot
    · rw [mallocHost_pin, same, Function.update_self] at pinned
      exact Or.inl ⟨same, (Option.some.inj pinned).symm⟩
    · rw [mallocHost_pin, Function.update_of_ne same] at pinned
      exact Or.inr pinned
  refine @Sound.of_silent _ ring (ring.mallocHost slot bytes) sound silent rfl rfl ?_ ?_
  · intro other address pinned
    rcases cases_pin other address pinned with ⟨_, rfl⟩ | before
    · exact Nat.lt_succ_self _
    · exact Nat.lt_succ_of_lt (sound.fresh other address before)
  · intro first second address atFirst atSecond
    rcases cases_pin first address atFirst with ⟨rfl, rfl⟩ | early
    · rcases cases_pin second _ atSecond with ⟨rfl, _⟩ | old
      · rfl
      · exact absurd (sound.fresh second _ old) (Nat.lt_irrefl _)
    · rcases cases_pin second address atSecond with ⟨rfl, rfl⟩ | late
      · exact absurd (sound.fresh first _ early) (Nat.lt_irrefl _)
      · exact sound.apart first second address early late

theorem Sound.eventCreate (sound : Sound ring) (silent : ring.Silent) (slot : Fin moePinN)
    (created : Bool) :
    Sound (ring.eventCreate slot created) ∧ (ring.eventCreate slot created).Silent := by
  unfold PinRing.eventCreate
  split
  next => exact sound.of_silent silent rfl rfl sound.fresh sound.apart
  next => exact ⟨sound, silent⟩

theorem Sound.allocate {growth : PinGrowth} {bytes : Nat} {before slots : List (Fin moePinN)}
    {filled : PinRing Stream × Bool} (sound : Sound ring) (silent : ring.Silent)
    (allocated : PinRing.allocate env growth bytes before slots ring = some filled) :
    Sound filled.1 ∧ filled.1.Silent := by
  induction slots generalizing before ring with
  | nil =>
      cases allocated
      exact ⟨sound, silent⟩
  | cons slot rest inductionHypothesis =>
      rw [PinRing.allocate] at allocated
      split at allocated
      next =>
        obtain ⟨soundFilled, silentFilled⟩ := sound.mallocHost silent slot bytes
        obtain ⟨soundCreated, silentCreated⟩ :=
          soundFilled.eventCreate silentFilled slot (growth.create slot)
        exact inductionHypothesis soundCreated silentCreated allocated
      next =>
        obtain ⟨emptied, run, same⟩ := Option.map_eq_some_iff.mp allocated
        cases same
        apply @runEach_preserves _ _ (freeHost env) (fun ring => Sound ring ∧ ring.Silent) _ _ _ _
          run ⟨sound, silent⟩
        intro freeing ring next freed reached
        obtain ⟨gone, _⟩ := freeHost_freed freed
        refine ⟨reached.1.freed gone fun index operation address bytes queued => ?_, ?_⟩
        · exact absurd queued (reached.2 index operation address bytes)
        · exact fun index operation address bytes queued =>
            reached.2 index operation address bytes (gone.queued queued)

end Buffers

/-! ## The copies -/

section Copies

variable {Stream : Type u} {ring after : PinRing Stream} {slot : Fin moePinN} {bytes : List UInt8}
variable {operation : Issued Stream StageWork} {address : Nat}

theorem Queued.of_issue {index : Nat} {found : Issued Stream StageWork}
    (queued : Queued { ring with device := ring.device.issue operation } index found address bytes) :
    ring.Queued index found address bytes ∨ (index = ring.device.ticket ∧ found = operation) := by
  have inside := (List.getElem?_eq_some_iff.mp queued.present).1
  rw [Device.issue, List.length_append, List.length_singleton] at inside
  rcases Nat.lt_succ_iff_lt_or_eq.mp inside with old | rfl
  · exact Or.inl ⟨log_issue_of_lt old ▸ queued.present, queued.work, queued.waiting⟩
  · have present := queued.present
    rw [Device.issue, List.getElem?_concat_length] at present
    exact Or.inr ⟨rfl, (Option.some.inj present).symm⟩

theorem Backed.issue {index : Nat} {found : Issued Stream StageWork}
    (backed : ring.Backed index found address bytes slot) :
    Backed { ring with device := ring.device.issue operation } index found address bytes slot := by
  refine ⟨backed.pinned, backed.held, fun event there => ?_⟩
  obtain ⟨ticket, record, same, before, recorded, stream⟩ := backed.recorded event there
  have issued := (List.getElem?_eq_some_iff.mp recorded).1
  exact ⟨ticket, record, same, before, (log_issue_of_lt issued).trans recorded, stream⟩

/-- Nothing is read out of the ring by what is issued. -/
theorem Sound.issue (sound : Sound ring)
    (plain : ∀ address bytes, operation.work ≠ some (.codes (.pinned address) bytes)) :
    Sound { ring with device := ring.device.issue operation } := by
  refine ⟨sound.causal.issue operation, sound.faithful, sound.fresh, sound.apart, ?_⟩
  intro index found address bytes queued
  rcases queued.of_issue with old | ⟨_, rfl⟩
  · obtain ⟨slot, backed⟩ := sound.backed index found address bytes old
    exact ⟨slot, backed.issue⟩
  · exact absurd queued.work (plain address bytes)

theorem Sound.memcpyAsync (sound : Sound ring) {st : Stream} {work : StageWork}
    (plain : ∀ address bytes, work ≠ .codes (.pinned address) bytes) (accepted : Bool) :
    Sound (ring.memcpyAsync st work accepted).1 := by
  unfold PinRing.memcpyAsync
  split
  next =>
    apply sound.issue
    intro address bytes same
    exact plain address bytes (Option.some.inj same)
  next => exact sound

/-- The buffer of the slot holds the bytes, and nothing is left to read it. -/
structure Loaded (ring : PinRing Stream) (slot : Fin moePinN) (address : Nat)
    (bytes : List UInt8) : Prop where
  pinned : ring.pin slot = some address
  held : (ring.memory address).map (·.take bytes.length) = some bytes
  quiet : ring.Quiet slot

theorem Sound.memcpy (sound : Sound ring) (quiet : ring.Quiet slot) {copied : Nat × PinRing Stream}
    (done : PinRing.memcpy slot bytes ring = some copied) :
    Sound copied.2 ∧ Loaded copied.2 slot copied.1 bytes := by
  unfold PinRing.memcpy at done
  cases there : ring.pin slot with
  | none =>
      rw [there] at done
      cases done
  | some address =>
      simp only [there] at done
      cases content : ring.memory address with
      | none =>
          rw [content] at done
          cases done
      | some old =>
          simp only [content] at done
          obtain ⟨_, same⟩ := Option.ite_none_right_eq_some.mp done
          cases same
          have filled : ((some (bytes ++ old.drop bytes.length)).map (·.take bytes.length)) =
              some bytes := by
            rw [Option.map_some, List.take_left']
            rfl
          refine ⟨⟨sound.causal, sound.faithful, sound.fresh, sound.apart, ?_⟩, there, ?_,
            fun index operation other wanted queued => quiet index operation other wanted
              ⟨queued.present, queued.work, queued.waiting⟩⟩
          · intro index operation other wanted queued
            have before : ring.Queued index operation other wanted :=
              ⟨queued.present, queued.work, queued.waiting⟩
            obtain ⟨owner, backed⟩ := sound.backed index operation other wanted before
            have away : other ≠ address := fun same =>
              quiet index operation other wanted before (same ▸ there)
            refine ⟨owner, backed.pinned, ?_, backed.recorded⟩
            have untouched := Function.update_of_ne away
              (some (bytes ++ old.drop bytes.length)) ring.memory
            exact (congrArg _ untouched).trans backed.held
          · have written := Function.update_self address
              (some (bytes ++ old.drop bytes.length)) ring.memory
            exact (congrArg _ written).trans filled

/-- The copy is queued and the event of the slot, where there is one, recorded behind it. -/
theorem Sound.queue (sound : Sound ring) (loaded : ring.Loaded slot address bytes) (st : Stream) :
    Sound (eventRecord slot st
      { ring with device := ring.device.launch st (.codes (.pinned address) bytes) }) := by
  set launched := { ring with device := ring.device.launch st (.codes (.pinned address) bytes) }
    with launched_eq
  have old_elsewhere : ∀ index found other wanted, ring.Queued index found other wanted →
      ∃ owner, owner ≠ slot ∧ launched.Backed index found other wanted owner := by
    intro index found other wanted old
    obtain ⟨owner, backed⟩ := sound.backed index found other wanted old
    refine ⟨owner, ?_, backed.issue⟩
    rintro rfl
    exact loaded.quiet index found other wanted old backed.pinned
  unfold eventRecord
  cases there : launched.pinEv slot with
  | none =>
      refine ⟨sound.causal.issue _, sound.faithful, sound.fresh, sound.apart, ?_⟩
      intro index found other wanted queued
      rcases queued.of_issue with old | ⟨_, rfl⟩
      · obtain ⟨owner, _, backed⟩ := old_elsewhere index found other wanted old
        exact ⟨owner, backed⟩
      · cases queued.work
        refine ⟨slot, loaded.pinned, loaded.held, fun event present => ?_⟩
        cases there.symm.trans present
  | some last =>
      refine ⟨(sound.causal.issue _).issue _, sound.faithful, sound.fresh, sound.apart, ?_⟩
      intro index found other wanted queued
      have inLaunched : launched.Queued index found other wanted := by
        rcases @Queued.of_issue _ launched _ _ _ _ _ ⟨queued.present, queued.work, queued.waiting⟩
          with before | ⟨_, rfl⟩
        · exact before
        · cases queued.work
      rcases inLaunched.of_issue with old | ⟨rfl, rfl⟩
      · obtain ⟨owner, other, backed⟩ := old_elsewhere index found other wanted old
        have later := @Backed.issue _ _ _ _ { stream := st, work := none, after := none } _ _ _ backed
        refine ⟨owner, later.pinned, later.held, fun event present => ?_⟩
        have kept := Function.update_of_ne other (some (some launched.device.ticket)) launched.pinEv
        exact later.recorded event (kept.symm.trans present)
      · cases queued.work
        refine ⟨slot, loaded.pinned, loaded.held, fun event present => ?_⟩
        have now := Function.update_self slot (some (some launched.device.ticket)) launched.pinEv
        refine ⟨launched.device.ticket, _, Option.some.inj (present.symm.trans now), ?_,
          List.getElem?_concat_length, rfl⟩
        rw [launched_eq, ticket, ticket, launch, Device.issue, List.length_append]
        exact Nat.lt_succ_self _

end Copies

end PinRing

end KairosEngine.Cuda
