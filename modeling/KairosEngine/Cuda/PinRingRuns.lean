import KairosEngine.Cuda.PinRing

/-!
# Runs of the staging ring

What a step keeps, and from it what every run does: the copies out of the ring find the bytes
they were queued for as long as no slot without an event is reused too early.
-/

namespace KairosEngine.Cuda

open KairosEngine.Library

universe u

namespace PinRing

/-! ## A step -/

section Steps

variable {Stream : Type u} [DecidableEq Stream] {ring : PinRing Stream} {env : PinEnv}

theorem Sound.release {growth : PinGrowth} {slot : Fin moePinN} {after : PinRing Stream}
    (sound : Sound ring) (releasable : Releasable env ring)
    (released : PinRing.release env growth slot ring = some after) :
    Sound after ∧ Releasable env after ∧ after.pin = Function.update ring.pin slot none := by
  obtain ⟨waited, synchronized, freed⟩ := Option.bind_eq_some_iff.mp released
  obtain ⟨progressed, run, waiting⟩ := Option.bind_eq_some_iff.mp synchronized
  have soundRun := sound.progress run
  have later := progress_later run
  obtain ⟨gone, idles⟩ := freeHost_freed freed
  obtain rfl := eventSynchronize_same waiting
  have quiet : progressed.Quiet slot := by
    rcases releasable with waits | guarded
    · exact idles waits
    · exact soundRun.quiet (later.guarded (guarded slot)) waiting
  refine ⟨soundRun.freed gone quiet, ?_, by rw [gone.pin, later.pin]⟩
  exact releasable.imp id fun guarded other => gone.guarded (later.guarded (guarded other))

/-- Emptying the ring leaves nothing that is queued to read it. -/
theorem Sound.releaseAll {growth : PinGrowth} {after : PinRing Stream} (sound : Sound ring)
    (releasable : Releasable env ring)
    (released : runEach (PinRing.release env growth) pinSlots ring = some after) :
    Sound after ∧ after.Silent := by
  have emptied : ∀ slots (ring : PinRing Stream), Sound ring → Releasable env ring →
      runEach (PinRing.release env growth) slots ring = some after →
        Sound after ∧ ∀ slot, slot ∈ slots ∨ ring.pin slot = none → after.pin slot = none := by
    intro slots
    induction slots with
    | nil =>
        intro ring sound _ run
        cases run
        exact ⟨sound, fun slot gone => gone.resolve_left List.not_mem_nil⟩
    | cons first rest inductionHypothesis =>
        intro ring sound releasable run
        obtain ⟨next, released, continued⟩ := Option.bind_eq_some_iff.mp run
        obtain ⟨soundNext, releasableNext, pins⟩ := sound.release releasable released
        obtain ⟨soundAfter, gone⟩ := inductionHypothesis next soundNext releasableNext continued
        refine ⟨soundAfter, fun slot known => ?_⟩
        apply gone slot
        rw [pins]
        by_cases same : slot = first
        · exact Or.inr (by rw [same, Function.update_self])
        · rw [Function.update_of_ne same]
          exact known.imp_left fun member => (List.mem_cons.mp member).resolve_left same
  obtain ⟨soundAfter, gone⟩ := emptied pinSlots ring sound releasable released
  exact ⟨soundAfter, soundAfter.silent fun slot => gone slot (Or.inl (List.mem_finRange slot))⟩

theorem Sound.moePinEnsure {growth : PinGrowth} {bytes : Nat} {ensured : PinRing Stream × Bool}
    (sound : Sound ring) (usable : env.pinOn = true → Usable env bytes ring)
    (done : PinRing.moePinEnsure env growth bytes ring = some ensured) :
    Sound ensured.1 ∧ (ensured.2 = true → ensured.1.Guarded ensured.1.pinI) := by
  unfold PinRing.moePinEnsure at done
  split at done
  next =>
    cases done
    exact ⟨sound, nofun⟩
  next on =>
    have relied := usable (by simpa using on)
    unfold Usable at relied
    split at done
    next room =>
      cases done
      rw [if_pos room] at relied
      exact ⟨sound, fun _ => relied⟩
    next small =>
      rw [if_neg small] at relied
      obtain ⟨emptied, released, allocated⟩ := Option.bind_eq_some_iff.mp done
      obtain ⟨filled, allocating, same⟩ := Option.map_eq_some_iff.mp allocated
      obtain ⟨soundEmptied, silent⟩ := sound.releaseAll relied released
      have reset := @Sound.of_silent _ emptied { emptied with pinCap := 0 } soundEmptied silent rfl
        rfl soundEmptied.fresh soundEmptied.apart
      obtain ⟨soundFilled, silentFilled⟩ := reset.1.allocate reset.2 allocating
      rw [← same]
      split
      next =>
        refine ⟨soundFilled.set bytes filled.1.pinI, fun _ _ => ?_⟩
        intro index operation address wanted queued
        exact absurd ⟨queued.present, queued.work, queued.waiting⟩
          (silentFilled index operation address wanted)
      next => exact ⟨soundFilled, nofun⟩

theorem Sound.stageRing {call : StageCall Stream} {staged : PinRing Stream × Bool}
    (sound : Sound ring) (guarded : ring.Guarded ring.pinI)
    (done : PinRing.stageRing call ring = some staged) : Sound staged.1 := by
  obtain ⟨copied, filling, same⟩ := Option.map_eq_some_iff.mp done
  obtain ⟨waited, waiting, filled⟩ := Option.bind_eq_some_iff.mp filling
  obtain ⟨progressed, run, passed⟩ := Option.bind_eq_some_iff.mp waiting
  have soundRun := (sound.set ring.pinCap (ring.pinI + 1)).progress run
  have later := progress_later run
  have still : Guarded { ring with pinI := ring.pinI + 1 } ring.pinI :=
    fun missing index operation address bytes queued =>
      guarded missing index operation address bytes ⟨queued.present, queued.work, queued.waiting⟩
  obtain rfl := eventSynchronize_same passed
  have quiet := soundRun.quiet (later.guarded still) passed
  obtain ⟨soundCopied, loaded⟩ := soundRun.memcpy quiet filled
  rw [← same, queuePinned, PinRing.memcpyAsync]
  cases call.codesOk with
  | false => exact soundCopied
  | true => exact soundCopied.queue loaded call.st

theorem Sound.moeStage {call : StageCall Stream} {staged : PinRing Stream × Bool}
    (sound : Sound ring) (guarded : GuardedStep env (.stage call) ring)
    (done : PinRing.moeStage env call ring = some staged) : Sound staged.1 := by
  obtain ⟨coded, coding, same⟩ := Option.map_eq_some_iff.mp done
  have soundCoded : Sound coded.1 := by
    unfold stageCodes at coding
    split at coding
    next =>
      cases coding
      exact sound.memcpyAsync (fun _ _ other => by cases other) _
    next unpinned =>
      obtain ⟨ensured, ensuring, staging⟩ := Option.bind_eq_some_iff.mp coding
      have relied := guarded (by simpa using unpinned)
      obtain ⟨soundEnsured, ready⟩ := sound.moePinEnsure relied ensuring
      split at staging
      next usable => exact soundEnsured.stageRing (ready usable) staging
      next =>
        cases staging
        exact soundEnsured.memcpyAsync (fun _ _ other => by cases other) _
  rw [← same]
  split
  next => exact soundCoded.memcpyAsync (fun _ _ other => by cases other) _
  next => exact soundCoded

theorem Sound.step {act : PinStep Stream} {after : PinRing Stream} (sound : Sound ring)
    (guarded : GuardedStep env act ring) (done : PinRing.step env act ring = some after) :
    Sound after := by
  cases act with
  | stage call =>
      obtain ⟨staged, staging, same⟩ := Option.map_eq_some_iff.mp done
      rw [← same]
      exact sound.moeStage guarded staging
  | run index => exact sound.complete done

end Steps

/-! ## Every event created -/

section Evented

variable {Stream : Type u} {ring after : PinRing Stream} {env : PinEnv} {slot : Fin moePinN}

/-- Every buffer of the ring has an event. -/
def Evented (ring : PinRing Stream) : Prop :=
  ∀ slot, ring.pinEv slot = none → ring.pin slot = none

theorem Evented.guarded (evented : ring.Evented) (slot : Fin moePinN) : ring.Guarded slot := by
  intro missing index operation address bytes _ pinned
  cases (evented slot missing).symm.trans pinned

theorem Later.evented (later : Later ring after) (evented : ring.Evented) : after.Evented := by
  intro slot missing
  rw [later.pinEv] at missing
  rw [later.pin]
  exact evented slot missing

theorem Freed.evented (freed : Freed ring slot after) (evented : ring.Evented) :
    after.Evented := by
  intro other missing
  rw [freed.pinEv] at missing
  cases there : after.pin other with
  | none => rfl
  | some address => cases (evented other missing).symm.trans (freed.pin_some there).2

theorem Evented.create (evented : ring.Evented) (slot : Fin moePinN) (bytes : Nat) :
    ((ring.mallocHost slot bytes).eventCreate slot true).Evented := by
  intro other missing
  unfold eventCreate at missing ⊢
  split at missing
  next absent =>
    rw [if_pos absent]
    change Function.update ring.pinEv slot (some none) other = none at missing
    by_cases same : other = slot
    · rw [same, Function.update_self] at missing
      cases missing
    · rw [Function.update_of_ne same] at missing
      exact (Function.update_of_ne same _ _).trans (evented other missing)
  next present =>
    rw [if_neg present]
    have away : other ≠ slot := by
      rintro rfl
      exact present ⟨missing, rfl⟩
    exact (Function.update_of_ne away _ _).trans (evented other missing)

theorem Evented.allocate {growth : PinGrowth} {bytes : Nat} {before slots : List (Fin moePinN)}
    {filled : PinRing Stream × Bool} (evented : ring.Evented)
    (created : ∀ slot, growth.create slot = true)
    (allocated : PinRing.allocate env growth bytes before slots ring = some filled) :
    filled.1.Evented := by
  induction slots generalizing before ring with
  | nil =>
      cases allocated
      exact evented
  | cons slot rest inductionHypothesis =>
      rw [PinRing.allocate] at allocated
      split at allocated
      next =>
        rw [created slot] at allocated
        exact inductionHypothesis (evented.create slot bytes) allocated
      next =>
        obtain ⟨emptied, run, same⟩ := Option.map_eq_some_iff.mp allocated
        cases same
        exact @runEach_preserves _ _ (freeHost env) Evented
          (fun _ _ _ freed evented => (freeHost_freed freed).1.evented evented) _ _ _ run evented

theorem Evented.memcpyAsync (evented : ring.Evented) (st : Stream) (work : StageWork)
    (accepted : Bool) : (ring.memcpyAsync st work accepted).1.Evented := by
  unfold PinRing.memcpyAsync
  split
  next => exact evented
  next => exact evented

theorem Evented.queuePinned {copied : Nat × PinRing Stream} (evented : copied.2.Evented)
    (call : StageCall Stream) (slot : Fin moePinN) :
    (PinRing.queuePinned call slot copied).1.Evented := by
  unfold PinRing.queuePinned PinRing.memcpyAsync
  cases call.codesOk with
  | false => exact evented
  | true =>
      change (eventRecord slot call.st _).Evented
      unfold eventRecord
      split
      next => exact evented
      next last _ =>
        intro other missing
        change Function.update copied.2.pinEv slot (some (some _)) other = none at missing
        by_cases same : other = slot
        · rw [same, Function.update_self] at missing
          cases missing
        · rw [Function.update_of_ne same] at missing
          exact evented other missing

variable [DecidableEq Stream]

theorem Evented.release {growth : PinGrowth} (evented : ring.Evented)
    (released : PinRing.release env growth slot ring = some after) : after.Evented := by
  obtain ⟨waited, synchronized, freed⟩ := Option.bind_eq_some_iff.mp released
  obtain ⟨progressed, run, waiting⟩ := Option.bind_eq_some_iff.mp synchronized
  obtain rfl := eventSynchronize_same waiting
  exact (freeHost_freed freed).1.evented ((progress_later run).evented evented)

theorem Evented.moePinEnsure {growth : PinGrowth} {bytes : Nat} {ensured : PinRing Stream × Bool}
    (evented : ring.Evented) (created : ∀ slot, growth.create slot = true)
    (done : PinRing.moePinEnsure env growth bytes ring = some ensured) : ensured.1.Evented := by
  unfold PinRing.moePinEnsure at done
  split at done
  next =>
    cases done
    exact evented
  next =>
    split at done
    next =>
      cases done
      exact evented
    next =>
      obtain ⟨emptied, released, allocated⟩ := Option.bind_eq_some_iff.mp done
      obtain ⟨filled, allocating, same⟩ := Option.map_eq_some_iff.mp allocated
      have eventedEmptied : emptied.Evented := @runEach_preserves _ _ (PinRing.release env growth)
        Evented (fun _ _ _ freed evented => evented.release freed) _ _ _ released evented
      have eventedFilled := @Evented.allocate _ { emptied with pinCap := 0 } _ _ _ _ _ _
        eventedEmptied created allocating
      rw [← same]
      split
      next => exact eventedFilled
      next => exact eventedFilled

theorem Evented.stageRing {call : StageCall Stream} {staged : PinRing Stream × Bool}
    (evented : ring.Evented) (done : PinRing.stageRing call ring = some staged) :
    staged.1.Evented := by
  obtain ⟨copied, filling, same⟩ := Option.map_eq_some_iff.mp done
  obtain ⟨waited, waiting, filled⟩ := Option.bind_eq_some_iff.mp filling
  obtain ⟨progressed, run, passed⟩ := Option.bind_eq_some_iff.mp waiting
  obtain rfl := eventSynchronize_same passed
  have eventedRun : progressed.Evented :=
    @Later.evented _ { ring with pinI := ring.pinI + 1 } _ (progress_later run) evented
  have eventedCopied : copied.2.Evented := by
    unfold PinRing.memcpy at filled
    split at filled
    next => cases filled
    next =>
      split at filled
      next => cases filled
      next =>
        obtain ⟨_, same⟩ := Option.ite_none_right_eq_some.mp filled
        cases same
        exact eventedRun
  rw [← same]
  exact eventedCopied.queuePinned call ring.pinI

/-- Every event that the step creates can be created. -/
def Creates : PinStep Stream → Prop
  | .run _ => True
  | .stage call => ∀ slot, call.growth.create slot = true

theorem Evented.step {act : PinStep Stream} (evented : ring.Evented) (creates : Creates act)
    (done : PinRing.step env act ring = some after) : after.Evented := by
  cases act with
  | run index => exact (complete_later done).evented evented
  | stage call =>
      obtain ⟨staged, staging, same⟩ := Option.map_eq_some_iff.mp done
      obtain ⟨coded, coding, rfl⟩ := Option.map_eq_some_iff.mp staging
      have eventedCoded : coded.1.Evented := by
        unfold stageCodes at coding
        split at coding
        next =>
          cases coding
          exact evented.memcpyAsync _ _ _
        next =>
          obtain ⟨ensured, ensuring, rest⟩ := Option.bind_eq_some_iff.mp coding
          have eventedEnsured := evented.moePinEnsure creates ensuring
          split at rest
          next => exact eventedEnsured.stageRing rest
          next =>
            cases rest
            exact eventedEnsured.memcpyAsync _ _ _
      rw [← same]
      split
      next => exact eventedCoded.memcpyAsync _ _ _
      next => exact eventedCoded

/-- Where no event creation fails, every run is guarded. -/
theorem guardedEach_of_creates (env : PinEnv) (acts : List (PinStep Stream))
    (creates : ∀ act ∈ acts, Creates act) :
    GuardedEach (PinRing.step env) (GuardedStep env) acts (boot : PinRing Stream) := by
  apply @GuardedEach.of_invariant _ _ (PinRing.step env) (GuardedStep env) Evented Creates _ _
    acts boot creates fun _ _ => rfl
  · intro act ring next creates done evented
    exact evented.step creates done
  · intro act ring _ evented
    cases act with
    | run index => trivial
    | stage call =>
        intro _ _
        unfold Usable
        split
        next => exact evented.guarded ring.pinI
        next => exact Or.inr evented.guarded

end Evented

/-! ## The reads -/

section Reads

/-- In every run in which no slot is reused, and no ring replaced, while a copy from a slot
without an event is outstanding, every copy out of the ring finds the bytes of its expert. -/
theorem moeStage_reads {Stream : Type u} [DecidableEq Stream] (env : PinEnv)
    (acts : List (PinStep Stream)) (final : PinRing Stream)
    (run : runEach (PinRing.step env) acts boot = some final)
    (guarded : GuardedEach (PinRing.step env) (GuardedStep env) acts boot) :
    ∀ read ∈ final.reads, read.found = some read.asked := by
  have sound : Sound final :=
    guarded.preserves (fun act ring next guard done before => before.step guard done) run sound_boot
  exact sound.faithful

/-- One byte of an expert, staged on one stream. -/
def byteCall (create : Fin moePinN → Bool) (meanwhile : List Nat) (e : Nat) : StageCall Unit where
  pt := { codes := UInt8.ofNat, rowOff := id, hasBscale := false }
  e := e
  rowsE := 1
  bytesE := 1
  bsn := 0
  st := ()
  arenaPinned := false
  growth := { malloc := fun _ => true, create, meanwhile := fun _ => [] }
  meanwhile := meanwhile
  codesOk := true
  bscaleOk := true

/-- Five calls, so that the last reuses the first slot, and the copies of the first two. -/
def fiveCalls (create : Fin moePinN → Bool) (meanwhile : List Nat) (copies : List Nat) :
    List (PinStep Unit) :=
  [0, 1, 2, 3].map (fun e => .stage (byteCall create [] e)) ++
    .stage (byteCall create meanwhile 4) :: copies.map .run

/-- The events are there: the fifth call waits for the first copy. -/
theorem moeStage_reads_evented :
    ∃ final, runEach (PinRing.step { pinOn := true, freeWaits := false })
        (fiveCalls (fun _ => true) [0, 1] [2]) boot = some final ∧
      final.reads.map (·.asked) = [[0], [1]] ∧
      ∀ read ∈ final.reads, read.found = some read.asked := by
  refine ⟨_, rfl, by decide, ?_⟩
  apply moeStage_reads { pinOn := true, freeWaits := false }
    (fiveCalls (fun _ => true) [0, 1] [2]) _ rfl
  apply guardedEach_of_creates
  intro act member
  simp only [fiveCalls, List.map_cons, List.map_nil, List.cons_append, List.nil_append,
    List.mem_cons, List.not_mem_nil, or_false] at member
  rcases member with rfl | rfl | rfl | rfl | rfl | rfl
  all_goals first | exact fun _ => rfl | trivial

/-- The event of the first slot could not be created: the fifth call fills that slot while the
first copy is queued, which then hands over the bytes of expert 4. -/
theorem moeStage_reads_other :
    (runEach (PinRing.step { pinOn := true, freeWaits := true })
      (fiveCalls (fun slot => decide (slot ≠ 0)) [] [0]) boot).map (·.reads) =
        some [{ asked := [0], found := some [4] }] := by decide

end Reads

end PinRing

end KairosEngine.Cuda
