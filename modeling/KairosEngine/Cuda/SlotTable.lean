import KairosEngine.Library.Loop
import KairosEngine.Cuda.ExpertCache

/-!
# The device slot table

Between any two statements of a call the device may run what it can.  With the early
publication of the mutant off, the table `g_ec_dmap` never shows a slot before the copies
into it have landed, nor after the slot has lost its key.
-/

namespace KairosEngine.Cuda

open KairosEngine.Library Device

variable {Scores : Type}

/-! ## Interleavings -/

/-- The cache and the statements that the call holding the lock still has to run. -/
structure CacheMachine (Scores : Type) where
  cache : ExpertCache Scores
  todo : List HostAct

inductive CacheAction (Scores : Type)
  | device (index : Nat)
  | enter (call : CacheCall Scores) (query : Nat → Bool)
  | act

/-- One action, where it is possible.  `cudaEventQuery` reports an event only after the
device has run its record. -/
def CacheMachine.step (env : CacheEnv Scores) (action : CacheAction Scores)
    (machine : CacheMachine Scores) : CacheMachine Scores :=
  match action, machine.todo with
  | .device index, _ =>
      if machine.cache.device.runnable index then
        { machine with
          cache := { machine.cache with device := machine.cache.device.run index } }
      else machine
  | .enter call query, [] =>
      let (cache, todo) := machine.cache.enter env
        (fun event => query event && decide (event ∈ machine.cache.device.ran)) call
      { cache, todo }
  | .enter _ _, _ :: _ => machine
  | .act, act :: rest => { cache := machine.cache.perform env act, todo := rest }
  | .act, [] => machine

def CacheMachine.boot (env : CacheEnv Scores) : CacheMachine Scores where
  cache := ExpertCache.boot env
  todo := []

/-! ## The invariant -/

/-- A copy into this array of this slot. -/
def ExpertWork.into (slot : Nat) (array : SlotArray) : ExpertWork → Bool
  | .copy place part _ => decide (place = slot ∧ part = array)

/-- The arrays a staged expert fills. -/
def CacheEnv.fills (env : CacheEnv Scores) : SlotArray → Bool
  | .gupCodes => true
  | .gupBs => env.gupScaled
  | .downCodes => true
  | .downBs => env.downScaled

namespace ExpertCache

variable (env : CacheEnv Scores)

/-- The last copy into every array of the slot was one of the key, and has landed. -/
def Landed (cache : ExpertCache Scores) (slot key : Nat) : Prop :=
  ∀ array, env.fills array = true →
    ∃ index operation, Latest cache.device (ExpertWork.into slot array) index operation ∧
      operation.work = some (.copy slot array key) ∧ index ∈ cache.device.ran

/-- The last copies into the slot were of the key and on this stream. -/
def Filled (cache : ExpertCache Scores) (slot key : Nat) (stream : CudaStream) (array : SlotArray) :
    Prop :=
  ∃ index, Latest cache.device (ExpertWork.into slot array) index
    { stream, work := some (.copy slot array key), after := none }

/-- The event of the slot was recorded behind the last copies into it. -/
def Covered (cache : ExpertCache Scores) (slot key : Nat) : Prop :=
  ∃ event record, cache.pev slot = some (some event) ∧ cache.device.log[event]? = some record ∧
    ∀ array, env.fills array = true →
      ∃ index < event, Latest cache.device (ExpertWork.into slot array) index
        { stream := record.stream, work := some (.copy slot array key), after := none }

/-- No reader can be shown the slot. -/
structure Hidden (cache : ExpertCache Scores) (slot : Nat) : Prop where
  unqueued : slot ∉ cache.unpub
  unpublished : ∀ key, cache.dmap key ≠ some slot

structure TableSound (cache : ExpertCache Scores) : Prop where
  published : ∀ key slot, cache.dmap key = some slot →
    cache.key slot = some key ∧ cache.Landed env slot key
  queued : ∀ slot ∈ cache.unpub, ∀ key, cache.key slot = some key →
    cache.pev slot ≠ none → cache.Covered env slot key
  off : cache.dmapOn = false → ∀ slot, cache.Hidden slot
  causal : Causal cache.device

/-- What a statement relies on. -/
def Allowed (cache : ExpertCache Scores) : HostAct → Prop
  | .copy _ slot _ _ => cache.Hidden slot
  | .disown slot => cache.Hidden slot
  | .own slot _ => cache.Hidden slot
  | .recordFilled slot _ => cache.Hidden slot
  | .issued slot key =>
      cache.key slot = some key ∧ (cache.pev slot ≠ none → cache.Covered env slot key)
  | _ => True

/-- Every statement finds what it relies on when its turn comes. -/
def Planned : ExpertCache Scores → List HostAct → Prop
  | _, [] => True
  | cache, act :: rest => cache.Allowed env act ∧ Planned (cache.perform env act) rest

end ExpertCache

/-! ## What a statement leaves alone -/

/-- The work a statement launches. -/
def HostAct.launches : HostAct → Option ExpertWork
  | .copy _ slot array key => some (.copy slot array key)
  | _ => none

/-- The slot whose content, owner or event the statement changes. -/
def HostAct.target : HostAct → Option Nat
  | .copy _ slot _ _ => some slot
  | .disown slot => some slot
  | .own slot _ => some slot
  | .recordFilled slot _ => some slot
  | _ => none

/-- The statement changes what readers are shown, or will be. -/
def HostAct.publishes : HostAct → Bool
  | .invalidate _ _ => true
  | .issued _ _ => true
  | _ => false

namespace ExpertCache

variable {env : CacheEnv Scores} {cache : ExpertCache Scores} {act : HostAct} {slot key : Nat}

theorem hf2Issued_rest (cache : ExpertCache Scores) (slot key : Nat) :
    (cache.hf2Issued env slot key).device = cache.device ∧
      (cache.hf2Issued env slot key).key = cache.key ∧
        (cache.hf2Issued env slot key).pev = cache.pev ∧
          (cache.hf2Issued env slot key).dmapOn = cache.dmapOn := by
  simp only [hf2Issued, hf2UnpubAdd]
  repeat' split
  all_goals exact ⟨rfl, rfl, rfl, rfl⟩

/-- A statement only issues to the device, and no other work than its own. -/
theorem perform_issues (cache : ExpertCache Scores) (act : HostAct) :
    ∃ operations, (cache.perform env act).device =
        { cache.device with log := cache.device.log ++ operations } ∧
      ∀ operation ∈ operations, operation.work = none ∨ operation.work = act.launches := by
  have nothing : ∃ operations, cache.device =
        { cache.device with log := cache.device.log ++ operations } ∧
      ∀ operation ∈ operations, operation.work = none ∨ operation.work = act.launches :=
    ⟨[], by rw [List.append_nil], fun _ member => absurd member List.not_mem_nil⟩
  have one : ∀ operation : Issued CudaStream ExpertWork,
      operation.work = none ∨ operation.work = act.launches →
        ∃ operations, cache.device.issue operation =
            { cache.device with log := cache.device.log ++ operations } ∧
          ∀ operation ∈ operations, operation.work = none ∨ operation.work = act.launches := by
    intro operation fits
    refine ⟨[operation], rfl, ?_⟩
    intro other member
    rwa [List.mem_singleton.mp member]
  cases act with
  | invalidate victim behind =>
      simp only [perform, hf2Invalidate]
      split
      next =>
        cases behind with
        | none => exact nothing
        | some stream =>
            refine ⟨[⟨.compute, none, none⟩, ⟨stream, none, some cache.device.ticket⟩],
              by simp only [wait, record, issue, List.append_assoc, List.singleton_append], ?_⟩
            intro operation member
            simp only [List.mem_cons, List.not_mem_nil, or_false] at member
            rcases member with rfl | rfl
            · exact Or.inl rfl
            · exact Or.inl rfl
      next => exact nothing
  | unmap victim =>
      simp only [perform]
      split
      next => exact nothing
      next => exact nothing
  | await victim stream =>
      simp only [perform]
      split
      next => exact one _ (Or.inl rfl)
      next => exact nothing
  | awaitReady => exact one _ (Or.inl rfl)
  | clearPend victim => exact nothing
  | copy stream victim part owner => exact one _ (Or.inr rfl)
  | disown victim => exact nothing
  | own victim owner => exact nothing
  | recordFilled victim stream =>
      simp only [perform]
      split
      next => exact one _ (Or.inl rfl)
      next => exact nothing
  | setPend victim =>
      simp only [perform]
      split
      next => exact nothing
      next => exact nothing
  | issued victim owner =>
      rw [perform, (hf2Issued_rest cache victim owner).1]
      exact nothing
  | stamp victim => exact nothing
  | touch owner => exact nothing
  | ringPut index victim => exact nothing

theorem perform_extends (away : act.target ≠ some slot) (array : SlotArray) :
    Extends (ExpertWork.into slot array) cache.device (cache.perform env act).device := by
  obtain ⟨operations, grown, works⟩ := @perform_issues _ env cache act
  refine ⟨operations, grown, ?_⟩
  intro operation member
  rcases works operation member with none | own
  · rw [none]
    rfl
  · rw [own]
    cases act with
    | copy stream victim part owner =>
        have other : ¬ (victim = slot ∧ part = array) := fun same => away (congrArg some same.1)
        simp only [HostAct.launches, Option.any_some, ExpertWork.into, decide_eq_false_iff_not]
        exact other
    | _ => rfl

theorem perform_causal (causal : Causal cache.device) :
    Causal (cache.perform env act).device := by
  obtain ⟨operations, grown, _⟩ := @perform_issues _ env cache act
  rw [grown]
  exact causal.append operations

/-- The owner and the event of another slot stay. -/
theorem perform_slot (away : act.target ≠ some slot) :
    (cache.perform env act).key slot = cache.key slot ∧
      (cache.perform env act).pev slot = cache.pev slot := by
  cases act with
  | invalidate victim behind =>
      simp only [perform, hf2Invalidate]
      split
      next => exact ⟨rfl, rfl⟩
      next => exact ⟨rfl, rfl⟩
  | unmap victim =>
      simp only [perform]
      split
      next => exact ⟨rfl, rfl⟩
      next => exact ⟨rfl, rfl⟩
  | await victim stream =>
      simp only [perform]
      split
      next => exact ⟨rfl, rfl⟩
      next => exact ⟨rfl, rfl⟩
  | disown victim =>
      have other : slot ≠ victim := fun same => away (congrArg some same.symm)
      exact ⟨Function.update_of_ne other _ _, rfl⟩
  | own victim owner =>
      have other : slot ≠ victim := fun same => away (congrArg some same.symm)
      exact ⟨Function.update_of_ne other _ _, rfl⟩
  | recordFilled victim stream =>
      have other : slot ≠ victim := fun same => away (congrArg some same.symm)
      simp only [perform]
      split
      next => exact ⟨rfl, Function.update_of_ne other _ _⟩
      next => exact ⟨rfl, rfl⟩
  | setPend victim =>
      simp only [perform]
      split
      next => exact ⟨rfl, rfl⟩
      next => exact ⟨rfl, rfl⟩
  | issued victim owner =>
      obtain ⟨_, sameKey, samePev, _⟩ := @hf2Issued_rest _ env cache victim owner
      rw [perform, sameKey, samePev]
      exact ⟨rfl, rfl⟩
  | _ => exact ⟨rfl, rfl⟩

theorem perform_shown (act : HostAct) (silent : act.publishes = false) :
    (cache.perform env act).dmap = cache.dmap ∧
      (cache.perform env act).unpub = cache.unpub ∧
        (cache.perform env act).dmapOn = cache.dmapOn := by
  cases act with
  | invalidate victim behind => cases silent
  | issued victim owner => cases silent
  | unmap victim =>
      simp only [perform]
      split
      next => exact ⟨rfl, rfl, rfl⟩
      next => exact ⟨rfl, rfl, rfl⟩
  | await victim stream =>
      simp only [perform]
      split
      next => exact ⟨rfl, rfl, rfl⟩
      next => exact ⟨rfl, rfl, rfl⟩
  | recordFilled victim stream =>
      simp only [perform]
      split
      next => exact ⟨rfl, rfl, rfl⟩
      next => exact ⟨rfl, rfl, rfl⟩
  | setPend victim =>
      simp only [perform]
      split
      next => exact ⟨rfl, rfl, rfl⟩
      next => exact ⟨rfl, rfl, rfl⟩
  | _ => exact ⟨rfl, rfl, rfl⟩

theorem Landed.perform (landed : cache.Landed env slot key) (away : act.target ≠ some slot) :
    (cache.perform env act).Landed env slot key := by
  intro array filled
  obtain ⟨index, operation, latest, work, ran⟩ := landed array filled
  have grows := @perform_extends _ env cache act slot away array
  refine ⟨index, operation, grows.latest latest, work, ?_⟩
  rw [grows.ran]
  exact ran

theorem Covered.perform (covered : cache.Covered env slot key) (away : act.target ≠ some slot) :
    (cache.perform env act).Covered env slot key := by
  obtain ⟨event, record, recorded, present, copies⟩ := covered
  refine ⟨event, record, (perform_slot away).2.trans recorded, ?_, ?_⟩
  · exact (perform_extends away .gupCodes).present present
  · intro array filled
    obtain ⟨index, before, latest⟩ := copies array filled
    exact ⟨index, before, (perform_extends away array).latest latest⟩

/-- Copies that an event of their stream covers have landed once the event reports success. -/
theorem Covered.landed (covered : cache.Covered env slot key) (causal : Causal cache.device)
    (success : ∀ event, cache.pev slot = some (some event) → event ∈ cache.device.ran) :
    cache.Landed env slot key := by
  obtain ⟨event, record, recorded, present, copies⟩ := covered
  intro array filled
  obtain ⟨index, before, latest⟩ := copies array filled
  exact ⟨index, _, latest, rfl,
    causal.fifo event (success event recorded) index before _ _ latest.present present rfl⟩

theorem Hidden.perform (hidden : cache.Hidden slot) (act : HostAct)
    (silent : act.publishes = false) : (cache.perform env act).Hidden slot := by
  obtain ⟨sameTable, sameQueue, _⟩ := @perform_shown _ env cache act silent
  constructor
  · rw [sameQueue]
    exact hidden.unqueued
  · rw [sameTable]
    exact hidden.unpublished

/-! ## The invariant over a statement -/

/-- Only `hf2_issued` adds to what readers are, or will be, shown. -/
theorem perform_shows_less (act : HostAct) (other : ∀ slot key, act ≠ .issued slot key) :
    (∀ key slot, (cache.perform env act).dmap key = some slot → cache.dmap key = some slot) ∧
      (∀ slot ∈ (cache.perform env act).unpub, slot ∈ cache.unpub) ∧
        (cache.perform env act).dmapOn = cache.dmapOn := by
  by_cases silent : act.publishes = false
  · obtain ⟨sameTable, sameQueue, sameOn⟩ := @perform_shown _ env cache act silent
    rw [sameTable, sameQueue]
    exact ⟨fun _ _ shown => shown, fun _ member => member, sameOn⟩
  · cases act with
    | invalidate victim behind =>
        simp only [perform, hf2Invalidate]
        split
        next =>
          refine ⟨?_, fun slot member => List.mem_of_mem_filter member, rfl⟩
          intro key slot shown
          cases known : cache.key victim with
          | none =>
              simp only [known] at shown
              exact shown
          | some old =>
              simp only [known] at shown
              by_cases same : key = old
              · rw [same, Function.update_self] at shown
                cases shown
              · rwa [Function.update_of_ne same] at shown
        next => exact ⟨fun _ _ shown => shown, fun _ member => member, rfl⟩
    | issued victim owner => exact absurd rfl (other victim owner)
    | _ => exact absurd rfl silent

theorem TableSound.hidden_invalidate (sound : cache.TableSound env) (slot : Nat)
    (behind : Option CudaStream) : (cache.perform env (.invalidate slot behind)).Hidden slot := by
  by_cases on : cache.dmapOn = true
  · simp only [perform, hf2Invalidate, if_pos on]
    constructor
    · simp
    · intro key shown
      cases known : cache.key slot with
      | none =>
          simp only [known] at shown
          rw [(sound.published key slot shown).1] at known
          cases known
      | some old =>
          simp only [known] at shown
          by_cases same : key = old
          · rw [same, Function.update_self] at shown
            cases shown
          · rw [Function.update_of_ne same] at shown
            rw [(sound.published key slot shown).1, Option.some.injEq] at known
            exact same known
  · simp only [perform, hf2Invalidate, if_neg on]
    exact sound.off (Bool.not_eq_true _ ▸ on) slot

theorem Allowed.hidden_target (allowed : cache.Allowed env act) (aims : act.target = some slot) :
    cache.Hidden slot := by
  cases act with
  | copy stream victim array owner =>
      cases aims
      exact allowed
  | disown victim =>
      cases aims
      exact allowed
  | own victim owner =>
      cases aims
      exact allowed
  | recordFilled victim stream =>
      cases aims
      exact allowed
  | _ => cases aims

theorem hf2UnpubAdd_mem {other : Nat} (member : other ∈ (cache.hf2UnpubAdd slot).unpub) :
    other ∈ cache.unpub ∨ other = slot ∧ cache.dmapOn = true := by
  unfold hf2UnpubAdd at member
  split at member
  next => exact Or.inl member
  next guard =>
    rcases List.mem_append.mp member with old | new
    · exact Or.inl old
    · refine Or.inr ⟨List.mem_singleton.mp new, ?_⟩
      by_contra off
      exact guard (Or.inl (Bool.not_eq_true _ ▸ off))

theorem TableSound.perform (sound : cache.TableSound env) (allowed : cache.Allowed env act)
    (mutantOff : env.mutantEarly = false) : (cache.perform env act).TableSound env := by
  by_cases issuing : ∃ slot key, act = .issued slot key
  · obtain ⟨slot, key, rfl⟩ := issuing
    obtain ⟨owned, covered⟩ := allowed
    by_cases on : cache.dmapOn = true
    · have queued : cache.perform env (.issued slot key) = cache.hf2UnpubAdd slot := by
        simp only [ExpertCache.perform, hf2Issued, if_pos on, mutantOff, Bool.false_eq_true,
          if_false]
      obtain ⟨sameDevice, sameKey, samePev, sameOn⟩ := @hf2Issued_rest _ env cache slot key
      have sameTable : (cache.hf2UnpubAdd slot).dmap = cache.dmap := by
        unfold hf2UnpubAdd
        split
        next => rfl
        next => rfl
      rw [ExpertCache.perform] at queued
      rw [queued] at sameDevice sameKey samePev sameOn
      rw [ExpertCache.perform, queued]
      refine ⟨?_, ?_, ?_, ?_⟩
      · intro other place shown
        rw [sameTable] at shown
        obtain ⟨owner, landed⟩ := sound.published other place shown
        rw [sameKey, Landed, sameDevice]
        exact ⟨owner, landed⟩
      · intro place member other owner hasEvent
        rw [Covered, samePev, sameDevice]
        rw [sameKey] at owner
        rw [samePev] at hasEvent
        rcases hf2UnpubAdd_mem member with old | ⟨rfl, _⟩
        · exact sound.queued place old other owner hasEvent
        · rw [owned, Option.some.injEq] at owner
          subst owner
          exact covered hasEvent
      · intro off
        rw [sameOn, on] at off
        cases off
      · rw [sameDevice]
        exact sound.causal
    · have nothing : cache.perform env (.issued slot key) = cache := by
        simp only [ExpertCache.perform, hf2Issued, if_neg on]
      rw [nothing]
      exact sound
  · obtain ⟨lessTable, lessQueue, sameOn⟩ := @perform_shows_less _ env cache act
      fun slot key same => issuing ⟨slot, key, same⟩
    have away : ∀ slot, ¬ cache.Hidden slot → act.target ≠ some slot :=
      fun slot visible aims => visible (allowed.hidden_target aims)
    refine ⟨?_, ?_, ?_, perform_causal sound.causal⟩
    · intro key slot shown
      have before := lessTable key slot shown
      obtain ⟨owner, landed⟩ := sound.published key slot before
      have elsewhere := away slot fun hidden => hidden.unpublished key before
      exact ⟨(perform_slot elsewhere).1.trans owner, landed.perform elsewhere⟩
    · intro slot member key owner hasEvent
      have before := lessQueue slot member
      have elsewhere := away slot fun hidden => hidden.unqueued before
      obtain ⟨sameKey, samePev⟩ := @perform_slot _ env cache act slot elsewhere
      rw [sameKey] at owner
      rw [samePev] at hasEvent
      exact (sound.queued slot before key owner hasEvent).perform elsewhere
    · intro off slot
      rw [sameOn] at off
      have hidden := sound.off off slot
      exact ⟨fun member => hidden.unqueued (lessQueue slot member),
        fun key shown => hidden.unpublished key (lessTable key slot shown)⟩

/-! ## The invariant over the device -/

/-- The device ran an operation. -/
def advance (cache : ExpertCache Scores) (index : Nat) : ExpertCache Scores :=
  { cache with device := cache.device.run index }

theorem hf2UnpubAdd_advance (cache : ExpertCache Scores) (slot index : Nat) :
    (cache.advance index).hf2UnpubAdd slot = (cache.hf2UnpubAdd slot).advance index := by
  unfold hf2UnpubAdd
  by_cases guard : cache.dmapOn = false ∨ cache.slots ≤ slot ∨ slot ∈ cache.unpub
  · rw [if_pos guard, if_pos]
    exact guard
  · rw [if_neg guard, if_neg]
    · rfl
    · exact guard

theorem perform_advance (cache : ExpertCache Scores) (act : HostAct) (index : Nat) :
    (cache.advance index).perform env act = (cache.perform env act).advance index := by
  cases act with
  | invalidate victim behind =>
      simp only [perform]
      unfold hf2Invalidate
      by_cases on : cache.dmapOn = true
      · rw [if_pos on, if_pos (show (cache.advance index).dmapOn = true from on)]
        cases behind with
        | none => rfl
        | some stream => rfl
      · rw [if_neg on, if_neg (show ¬ (cache.advance index).dmapOn = true from on)]
  | unmap victim =>
      simp only [perform, advance]
      cases cache.key victim with
      | none => rfl
      | some old => rfl
  | await victim stream =>
      simp only [perform, advance]
      cases cache.pev victim with
      | none => rfl
      | some event => rfl
  | recordFilled victim stream =>
      simp only [perform, advance]
      cases cache.pev victim with
      | none => rfl
      | some event => rfl
  | setPend victim =>
      simp only [perform]
      by_cases made : (cache.pev victim).isSome = true
      · rw [if_pos made, if_pos (show ((cache.advance index).pev victim).isSome = true from made)]
        rfl
      · rw [if_neg made, if_neg (show ¬ ((cache.advance index).pev victim).isSome = true from made)]
  | issued victim owner =>
      simp only [perform]
      unfold hf2Issued
      by_cases on : cache.dmapOn = true
      · rw [if_pos on, if_pos (show (cache.advance index).dmapOn = true from on)]
        cases env.mutantEarly with
        | false => exact hf2UnpubAdd_advance cache victim index
        | true =>
            exact hf2UnpubAdd_advance
              { cache with dmap := Function.update cache.dmap owner (some victim) } victim index
      · rw [if_neg on, if_neg (show ¬ (cache.advance index).dmapOn = true from on)]
  | _ => rfl

theorem Planned.advance {todo : List HostAct} (planned : cache.Planned env todo) (index : Nat) :
    (cache.advance index).Planned env todo := by
  induction todo generalizing cache with
  | nil => trivial
  | cons act rest inductionHypothesis =>
      refine ⟨?_, ?_⟩
      · cases act with
        | copy stream slot array key => exact ⟨planned.1.unqueued, planned.1.unpublished⟩
        | disown slot => exact ⟨planned.1.unqueued, planned.1.unpublished⟩
        | own slot key => exact ⟨planned.1.unqueued, planned.1.unpublished⟩
        | recordFilled slot stream => exact ⟨planned.1.unqueued, planned.1.unpublished⟩
        | issued slot key =>
            refine ⟨planned.1.1, fun hasEvent => ?_⟩
            obtain ⟨event, record, recorded, present, copies⟩ := planned.1.2 hasEvent
            refine ⟨event, record, recorded, present, ?_⟩
            intro array filled
            obtain ⟨copy, before, latest⟩ := copies array filled
            exact ⟨copy, before, latest.present, latest.fits, latest.last⟩
        | _ => trivial
      · rw [perform_advance]
        exact inductionHypothesis planned.2

theorem TableSound.advance (sound : cache.TableSound env) {index : Nat}
    (ready : cache.device.runnable index = true) : (cache.advance index).TableSound env := by
  refine ⟨?_, ?_, ?_, sound.causal.run ready⟩
  · intro key slot shown
    obtain ⟨owner, landed⟩ := sound.published key slot shown
    refine ⟨owner, fun array filled => ?_⟩
    obtain ⟨copy, operation, latest, work, ran⟩ := landed array filled
    exact ⟨copy, operation, ⟨latest.present, latest.fits, latest.last⟩, work,
      List.mem_append_left _ ran⟩
  · intro slot member key owner hasEvent
    obtain ⟨event, record, recorded, present, copies⟩ :=
      sound.queued slot member key owner hasEvent
    refine ⟨event, record, recorded, present, fun array filled => ?_⟩
    obtain ⟨copy, before, latest⟩ := copies array filled
    exact ⟨copy, before, latest.present, latest.fits, latest.last⟩
  · intro off slot
    exact ⟨(sound.off off slot).unqueued, (sound.off off slot).unpublished⟩

/-! ## The calls -/

variable {after : ExpertCache Scores} {query : Nat → Bool}

/-- Nothing of the slot table changed. -/
structure SameTable (after cache : ExpertCache Scores) : Prop where
  key : after.key = cache.key
  pev : after.pev = cache.pev
  dmap : after.dmap = cache.dmap
  unpub : after.unpub = cache.unpub
  dmapOn : after.dmapOn = cache.dmapOn
  device : after.device = cache.device

theorem SameTable.sound (same : SameTable after cache) (sound : cache.TableSound env) :
    after.TableSound env := by
  refine ⟨?_, ?_, ?_, by rw [same.device]; exact sound.causal⟩
  · intro key slot shown
    rw [same.dmap] at shown
    rw [same.key, Landed, same.device]
    exact sound.published key slot shown
  · intro slot member key owner hasEvent
    rw [same.unpub] at member
    rw [same.key] at owner
    rw [same.pev] at hasEvent
    rw [Covered, same.pev, same.device]
    exact sound.queued slot member key owner hasEvent
  · intro off slot
    rw [same.dmapOn] at off
    have hidden := sound.off off slot
    constructor
    · rw [same.unpub]
      exact hidden.unqueued
    · rw [same.dmap]
      exact hidden.unpublished

theorem moeReadyNow_table (cache : ExpertCache Scores) (L e NE : Nat) :
    SameTable (cache.moeReadyNow env query L e NE).2 cache := by
  obtain ⟨_, _, _, changed⟩ := moeReadyNow_changes env query cache L e NE
  rw [changed]
  exact ⟨rfl, rfl, rfl, rfl, rfl, rfl⟩

theorem scanRing_table (indices : List Nat) (cache : ExpertCache Scores) :
    SameTable (indices.foldl (scanRing query) (cache, 0, none)).1 cache := by
  obtain ⟨_, _, changed⟩ := scanRing_changes query indices (cache, 0, none)
  rw [changed]
  exact ⟨rfl, rfl, rfl, rfl, rfl, rfl⟩

/-- Publishing a queued slot whose event reports success keeps the table sound. -/
theorem TableSound.reapSlot (sound : cache.TableSound env) (on : cache.dmapOn = true)
    (honest : ∀ event, query event = true → event ∈ cache.device.ran)
    (covered : ∀ key, cache.key slot = some key → cache.pev slot ≠ none →
      cache.Covered env slot key) :
    (cache.reapSlot query slot).TableSound env := by
  have dropped : ({ cache with unpub := cache.unpub.filter (· ≠ slot) } :
      ExpertCache Scores).TableSound env := by
    refine ⟨sound.published, ?_, fun off => ?_, sound.causal⟩
    · intro other member key owner hasEvent
      exact sound.queued other (List.mem_of_mem_filter member) key owner hasEvent
    · rw [on] at off
      cases off
  unfold ExpertCache.reapSlot
  cases owner : cache.key slot with
  | none => exact dropped
  | some key =>
      cases event : cache.pev slot with
      | none => exact dropped
      | some recorded =>
          simp only
          split
          next success =>
            have landed : cache.Landed env slot key := by
              refine (covered key owner (by rw [event]; nofun)).landed sound.causal ?_
              intro record same
              rw [settled, same] at success
              exact honest record success
            refine ⟨?_, dropped.queued, fun off => ?_, sound.causal⟩
            · intro other place shown
              simp only at shown
              by_cases same : other = key
              · subst same
                rw [Function.update_self, Option.some.injEq] at shown
                subst shown
                exact ⟨owner, landed⟩
              · rw [Function.update_of_ne same] at shown
                exact sound.published other place shown
            · rw [on] at off
              cases off
          next => exact sound

theorem reapSlot_rest (cache : ExpertCache Scores) (slot : Nat) :
    (cache.reapSlot query slot).key = cache.key ∧ (cache.reapSlot query slot).pev = cache.pev ∧
      (cache.reapSlot query slot).device = cache.device ∧
        (cache.reapSlot query slot).dmapOn = cache.dmapOn := by
  obtain ⟨_, _, changed⟩ := reapSlot_changes query cache slot
  rw [changed]
  exact ⟨rfl, rfl, rfl, rfl⟩

theorem TableSound.hf2Reap (sound : cache.TableSound env)
    (honest : ∀ event, query event = true → event ∈ cache.device.ran) :
    (cache.hf2Reap query).TableSound env ∧ (cache.hf2Reap query).device = cache.device := by
  unfold ExpertCache.hf2Reap
  split
  next on =>
    have reached : ∀ reaped : ExpertCache Scores, reaped = cache.unpub.foldl
        (ExpertCache.reapSlot query) cache → reaped.TableSound env ∧ reaped.key = cache.key ∧
          reaped.pev = cache.pev ∧ reaped.device = cache.device ∧
            reaped.dmapOn = cache.dmapOn := by
      rintro reaped rfl
      apply List.foldlRecOn (motive := fun reached : ExpertCache Scores =>
        reached.TableSound env ∧ reached.key = cache.key ∧ reached.pev = cache.pev ∧
          reached.device = cache.device ∧ reached.dmapOn = cache.dmapOn)
      · exact ⟨sound, rfl, rfl, rfl, rfl⟩
      · rintro middle ⟨middleSound, sameKey, samePev, sameDevice, sameOn⟩ slot queued
        obtain ⟨key, pev, device, dmapOn⟩ := @reapSlot_rest _ query middle slot
        refine ⟨middleSound.reapSlot (sameOn.trans on) (by rwa [sameDevice]) ?_,
          key.trans sameKey, pev.trans samePev, device.trans sameDevice, dmapOn.trans sameOn⟩
        intro owner owned hasEvent
        rw [sameKey] at owned
        rw [samePev] at hasEvent
        rw [Covered, samePev, sameDevice]
        exact sound.queued slot queued owner owned hasEvent
    obtain ⟨reapedSound, _, _, device, _⟩ := reached _ rfl
    exact ⟨reapedSound, device⟩
  next => exact ⟨sound, rfl⟩

theorem planned_append {first second : List HostAct} :
    cache.Planned env (first ++ second) ↔
      cache.Planned env first ∧ (first.foldl (perform env) cache).Planned env second := by
  induction first generalizing cache with
  | nil => simp [Planned]
  | cons act rest inductionHypothesis =>
      simp only [List.cons_append, Planned, List.foldl_cons, inductionHypothesis, and_assoc]

/-- The statement touches no other slot and shows nothing. -/
def Handles (slot : Nat) (act : HostAct) : Prop :=
  act.publishes = false ∧ ∀ target, act.target = some target → target = slot

/-- Statements about a hidden slot may run, and it stays hidden. -/
theorem planned_of_hidden {acts : List HostAct} (hidden : cache.Hidden slot)
    (handles : ∀ act ∈ acts, Handles slot act) :
    cache.Planned env acts ∧ (acts.foldl (perform env) cache).Hidden slot := by
  induction acts generalizing cache with
  | nil => exact ⟨trivial, hidden⟩
  | cons act rest inductionHypothesis =>
      obtain ⟨silent, aims⟩ := handles act List.mem_cons_self
      have next := @Hidden.perform _ env cache slot hidden act silent
      obtain ⟨planned, still⟩ := inductionHypothesis next fun other member =>
        handles other (List.mem_cons_of_mem _ member)
      refine ⟨⟨?_, planned⟩, still⟩
      cases act with
      | copy stream target array key =>
          rw [aims target rfl] at *
          exact hidden
      | disown target =>
          rw [aims target rfl] at *
          exact hidden
      | own target key =>
          rw [aims target rfl] at *
          exact hidden
      | recordFilled target stream =>
          rw [aims target rfl] at *
          exact hidden
      | issued target key => cases silent
      | _ => trivial

/-! ## The statements of a miss -/

theorem handles_append {first second : List HostAct} (early : ∀ act ∈ first, Handles slot act)
    (late : ∀ act ∈ second, Handles slot act) : ∀ act ∈ first ++ second, Handles slot act := by
  intro act member
  rcases List.mem_append.mp member with inFirst | inSecond
  · exact early act inFirst
  · exact late act inSecond

theorem handles_ite {condition : Prop} [Decidable condition] {acts : List HostAct}
    (handles : ∀ act ∈ acts, Handles slot act) :
    ∀ act ∈ (if condition then acts else []), Handles slot act := by
  split
  next => exact handles
  next => exact fun _ member => absurd member List.not_mem_nil

theorem tensorCopies_handles (stream : CudaStream) (slot key : Nat) (codes scales : SlotArray)
    (scaled : Bool) (staged : Staged) :
    ∀ act ∈ tensorCopies stream slot key codes scales scaled staged, Handles slot act := by
  have copies : ∀ array, Handles slot (.copy stream slot array key) :=
    fun array => ⟨rfl, fun target aims => (Option.some.inj aims).symm⟩
  intro act member
  cases staged with
  | ok =>
      rw [tensorCopies] at member
      rcases List.mem_cons.mp member with rfl | later
      · exact copies codes
      · split at later
        next =>
          rw [List.mem_singleton.mp later]
          exact copies scales
        next => exact absurd later List.not_mem_nil
  | codesFailed => exact absurd member List.not_mem_nil
  | scalesFailed =>
      rw [List.mem_singleton.mp member]
      exact copies codes

theorem stageCopies_handles (stream : CudaStream) (slot key : Nat) (gup down : Staged) :
    ∀ act ∈ stageCopies env stream slot key gup down, Handles slot act := by
  intro act member
  rw [stageCopies] at member
  rcases List.mem_append.mp member with first | second
  · exact tensorCopies_handles _ _ _ _ _ _ _ act first
  · split at second
    next => exact tensorCopies_handles _ _ _ _ _ _ _ act second
    next => exact absurd second List.not_mem_nil

/-- A copy fills its array. -/
theorem filled_copy (stream : CudaStream) (array : SlotArray) :
    (cache.perform env (.copy stream slot array key)).Filled slot key stream array :=
  ⟨cache.device.ticket, latest_issue (by simp [ExpertWork.into])⟩

/-- A copy into another array leaves this one filled. -/
theorem Filled.copy {stream other : CudaStream} {array part : SlotArray} {owner : Nat}
    (filled : cache.Filled slot key stream array) (apart : part ≠ array) :
    (cache.perform env (.copy other slot part owner)).Filled slot key stream array := by
  obtain ⟨index, latest⟩ := filled
  refine ⟨index, Extends.latest (extends_issue ?_) latest⟩
  simp [ExpertWork.into, apart]

theorem Filled.copies {stream : CudaStream} {array : SlotArray} {parts : List SlotArray}
    (filled : cache.Filled slot key stream array) (absent : array ∉ parts) :
    ((parts.map fun part => HostAct.copy stream slot part key).foldl (perform env) cache).Filled
      slot key stream array := by
  induction parts generalizing cache with
  | nil => exact filled
  | cons part rest inductionHypothesis =>
      have apart : part ≠ array := fun same => absent (same ▸ List.mem_cons_self)
      exact inductionHypothesis (@Filled.copy _ env _ _ _ _ _ _ _ _ filled apart)
        fun later => absent (List.mem_cons_of_mem _ later)

theorem copies_filled {stream : CudaStream} {array : SlotArray} {parts : List SlotArray}
    (distinct : parts.Nodup) (member : array ∈ parts) :
    ((parts.map fun part => HostAct.copy stream slot part key).foldl (perform env) cache).Filled
      slot key stream array := by
  induction parts generalizing cache with
  | nil => exact absurd member List.not_mem_nil
  | cons part rest inductionHypothesis =>
      obtain ⟨absent, restDistinct⟩ := List.nodup_cons.mp distinct
      rcases List.mem_cons.mp member with rfl | later
      · exact (@filled_copy _ env cache slot key stream array).copies absent
      · exact inductionHypothesis restDistinct later

/-- After both tensors are staged every array of the slot is filled. -/
theorem stageCopies_filled (cache : ExpertCache Scores) (stream : CudaStream) (slot key : Nat)
    (array : SlotArray) (used : env.fills array = true) :
    ((stageCopies env stream slot key .ok .ok).foldl (perform env) cache).Filled slot key stream
      array := by
  have parts : stageCopies env stream slot key .ok .ok =
      ([SlotArray.gupCodes, .gupBs, .downCodes, .downBs].filter env.fills).map
        fun part => HostAct.copy stream slot part key := by
    unfold stageCopies tensorCopies
    cases gup : env.gupScaled with
    | false =>
        cases down : env.downScaled with
        | false => simp [List.filter, CacheEnv.fills, gup, down]
        | true => simp [List.filter, CacheEnv.fills, gup, down]
    | true =>
        cases down : env.downScaled with
        | false => simp [List.filter, CacheEnv.fills, gup, down]
        | true => simp [List.filter, CacheEnv.fills, gup, down]
  rw [parts]
  apply copies_filled
  · exact List.Nodup.filter _ (by decide)
  · refine List.mem_filter.mpr ⟨?_, used⟩
    cases array with
    | gupCodes => decide
    | gupBs => decide
    | downCodes => decide
    | downBs => decide

/-- The event recorded behind the copies covers them. -/
theorem covered_recordFilled {stream : CudaStream}
    (filled : ∀ array, env.fills array = true → cache.Filled slot key stream array)
    (hasEvent : cache.pev slot ≠ none) :
    (cache.perform env (.recordFilled slot stream)).Covered env slot key := by
  obtain ⟨recorded, known⟩ := Option.ne_none_iff_exists'.mp hasEvent
  simp only [perform, known]
  refine ⟨cache.device.ticket, ⟨stream, none, none⟩, Function.update_self _ _ _,
    by simp [record, issue, ticket], ?_⟩
  intro array used
  obtain ⟨index, latest⟩ := filled array used
  exact ⟨index, (List.getElem?_eq_some_iff.mp latest.present).1, (extends_issue rfl).latest latest⟩

theorem Covered.of_same (covered : cache.Covered env slot key)
    (samePev : after.pev slot = cache.pev slot) (sameDevice : after.device = cache.device) :
    after.Covered env slot key := by
  rw [Covered, samePev, sameDevice]
  exact covered

/-- The last statements of a miss of `moe_resident`. -/
theorem planned_resident_end (hidden : cache.Hidden slot) (stream : CudaStream)
    (filled : ∀ array, env.fills array = true → cache.Filled slot key stream array) :
    cache.Planned env [.own slot key, .recordFilled slot stream, .issued slot key, .stamp slot,
      .touch key] := by
  have owned : (cache.perform env (.own slot key)).Hidden slot := hidden.perform _ rfl
  have ownedFilled : ∀ array, env.fills array = true →
      (cache.perform env (.own slot key)).Filled slot key stream array := filled
  refine ⟨hidden, owned, ⟨?_, ?_⟩, trivial, trivial, trivial⟩
  · have before : (cache.perform env (.own slot key)).key slot = some key :=
      Function.update_self _ _ _
    generalize cache.perform env (.own slot key) = reached at before
    simp only [perform]
    cases reached.pev slot with
    | none => exact before
    | some event => exact before
  · intro hasEvent
    apply covered_recordFilled ownedFilled
    intro absent
    generalize cache.perform env (.own slot key) = reached at absent hasEvent
    simp only [perform, absent] at hasEvent
    exact hasEvent rfl

/-- The last statements of `moe_admit_async`. -/
theorem planned_admit_end (hidden : cache.Hidden slot) (index : Nat)
    (filled : ∀ array, env.fills array = true → cache.Filled slot key .admission array) :
    cache.Planned env [.recordFilled slot .admission, .setPend slot, .own slot key, .stamp slot,
      .issued slot key, .ringPut index slot] := by
  have recorded : (cache.perform env (.recordFilled slot .admission)).Hidden slot :=
    hidden.perform _ rfl
  have pending : ((cache.perform env (.recordFilled slot .admission)).perform env
      (.setPend slot)).Hidden slot := recorded.perform _ rfl
  refine ⟨hidden, trivial, pending, trivial, ⟨Function.update_self _ _ _, ?_⟩, trivial, trivial⟩
  intro hasEvent
  by_cases made : cache.pev slot = none
  · exfalso
    apply hasEvent
    simp only [perform, made, Option.isSome_none, Bool.false_eq_true, if_false]
  · have covered := @covered_recordFilled _ env cache slot key .admission filled made
    generalize cache.perform env (.recordFilled slot .admission) = reached at covered
    apply covered.of_same
    · simp only [perform]
      split
      next => rfl
      next => rfl
    · simp only [perform]
      split
      next => rfl
      next => rfl

/-- A victim stays hidden from its invalidation to the end of the staging, and where that
succeeds its arrays are filled. -/
theorem planned_staging (sound : cache.TableSound env) {front : List HostAct} {victim : Nat}
    (behind : Option CudaStream) (handles : ∀ act ∈ front, Handles victim act)
    (stream : CudaStream) (key : Nat) (gup down : Staged) :
    let acts := .invalidate victim behind :: front ++ stageCopies env stream victim key gup down
    cache.Planned env acts ∧ (acts.foldl (perform env) cache).Hidden victim ∧
      (gup = .ok ∧ down = .ok → ∀ array, env.fills array = true →
        (acts.foldl (perform env) cache).Filled victim key stream array) := by
  have hidden := sound.hidden_invalidate victim behind
  obtain ⟨planned, still⟩ := @planned_of_hidden _ env _ victim _ hidden
    (handles_append handles (stageCopies_handles stream victim key gup down))
  refine ⟨⟨trivial, planned⟩, still, ?_⟩
  rintro ⟨rfl, rfl⟩ array used
  rw [List.cons_append, List.foldl_cons, List.foldl_append]
  exact stageCopies_filled _ stream victim key array used

theorem planned_moeResident (sound : cache.TableSound env) (L e NE : Nat) (st : CudaStream)
    (gup down : Staged) : cache.Planned env (cache.moeResident env query L e NE st gup down) := by
  unfold moeResident
  simp only
  split
  next => trivial
  next =>
    split
    next miss =>
      generalize cache.moeEvVictim env = victim
      have front : ∀ act ∈ .unmap victim :: (if cache.pend victim = true then
          [HostAct.await victim st, .clearPend victim] else []), Handles victim act := by
        refine @handles_append _ [_] _ ?_ ?_
        · simp [Handles, HostAct.publishes, HostAct.target]
        · exact handles_ite (by simp [Handles, HostAct.publishes, HostAct.target])
      obtain ⟨planned, hidden, filled⟩ := planned_staging sound
        (if st = .compute then none else some st) front st (L * NE + e) gup down
      apply planned_append.mpr
      refine ⟨planned, ?_⟩
      simp only [List.cons_append, List.nil_append] at hidden filled ⊢
      generalize List.foldl (perform env) cache _ = reached at hidden filled ⊢
      split
      next staged =>
        split
        next => exact planned_resident_end hidden st (filled staged)
        next => exact ⟨hidden, trivial, trivial, trivial⟩
      next => trivial
    next slot hit =>
      apply planned_append.mpr
      constructor
      · split
        next =>
          split
          next => exact ⟨trivial, trivial⟩
          next => exact ⟨trivial, trivial⟩
        next => trivial
      · exact ⟨trivial, trivial, trivial⟩

theorem moeAdmitAsync_sound (sound : cache.TableSound env)
    (honest : ∀ event, query event = true → event ∈ cache.device.ran) (L e NE : Nat)
    (gup down : Staged) :
    (cache.moeAdmitAsync env query L e NE gup down).1.TableSound env ∧
      (cache.moeAdmitAsync env query L e NE gup down).1.Planned env
        (cache.moeAdmitAsync env query L e NE gup down).2 := by
  unfold moeAdmitAsync
  simp only
  split
  next => exact ⟨sound, trivial⟩
  next =>
    have scanned := @scanRing_table _ query (List.range env.admitCap) cache
    generalize (List.range env.admitCap).foldl (scanRing query) (cache, 0, none) = result
      at scanned ⊢
    obtain ⟨scan, inflight, free⟩ := result
    simp only at scanned ⊢
    have reaped := (@TableSound.hf2Reap _ env scan query (scanned.sound sound)
      (by rwa [scanned.device])).1
    generalize scan.hf2Reap query = reached at reaped ⊢
    cases free with
    | none => exact ⟨reaped, trivial⟩
    | some index =>
        simp only
        split
        next => exact ⟨reaped, trivial⟩
        next =>
          refine ⟨reaped, ?_⟩
          generalize reached.moeEvVictim env = victim
          have front : ∀ act ∈ .unmap victim :: .awaitReady :: (if reached.pend victim = true then
              [HostAct.await victim .admission] else []), Handles victim act := by
            refine @handles_append _ [_, _] _ ?_ ?_
            · simp [Handles, HostAct.publishes, HostAct.target]
            · exact handles_ite (by simp [Handles, HostAct.publishes, HostAct.target])
          obtain ⟨planned, hidden, filled⟩ := planned_staging reaped (some .admission) front
            .admission (L * NE + e) gup down
          apply planned_append.mpr
          refine ⟨planned, ?_⟩
          simp only [List.cons_append, List.nil_append] at hidden filled ⊢
          generalize List.foldl (perform env) reached _ = staged at hidden filled ⊢
          split
          next staged => exact planned_admit_end hidden index (filled staged)
          next => exact ⟨hidden, trivial⟩

theorem enter_sound (sound : cache.TableSound env)
    (honest : ∀ event, query event = true → event ∈ cache.device.ran)
    (call : CacheCall Scores) :
    (cache.enter env query call).1.TableSound env ∧
      (cache.enter env query call).1.Planned env (cache.enter env query call).2 := by
  cases call with
  | init outcome =>
      refine ⟨⟨?_, ?_, ?_, sound.causal⟩, trivial⟩
      · intro key slot shown
        cases shown
      · intro slot member
        exact absurd member List.not_mem_nil
      · intro _ slot
        exact ⟨List.not_mem_nil, fun key => nofun⟩
  | setLane lane layer =>
      have same : SameTable (cache.enter env query (.setLane lane layer)).1 cache :=
        ⟨rfl, rfl, rfl, rfl, rfl, rfl⟩
      exact ⟨same.sound sound, trivial⟩
  | recordReady =>
      have grows : ∀ slot array, Extends (ExpertWork.into slot array) cache.device
          (cache.device.record .compute) := fun _ _ => extends_issue rfl
      refine ⟨⟨?_, ?_, fun off slot => ?_, sound.causal.issue _⟩, trivial⟩
      · intro key slot shown
        obtain ⟨owner, landed⟩ := sound.published key slot shown
        refine ⟨owner, fun array used => ?_⟩
        obtain ⟨index, operation, latest, work, ran⟩ := landed array used
        exact ⟨index, operation, (grows slot array).latest latest, work, ran⟩
      · intro slot member key owner hasEvent
        obtain ⟨event, record, recorded, present, copies⟩ :=
          sound.queued slot member key owner hasEvent
        refine ⟨event, record, recorded, (grows slot .gupCodes).present present, ?_⟩
        intro array used
        obtain ⟨index, before, latest⟩ := copies array used
        exact ⟨index, before, (grows slot array).latest latest⟩
      · exact ⟨(sound.off off slot).unqueued, (sound.off off slot).unpublished⟩
  | resident L e NE st gup down =>
      exact ⟨sound, planned_moeResident sound L e NE st gup down⟩
  | readyNow L e NE => exact ⟨(moeReadyNow_table cache L e NE).sound sound, trivial⟩
  | admitAsync L e NE gup down => exact moeAdmitAsync_sound sound honest L e NE gup down
  | reap => exact ⟨(sound.hf2Reap honest).1, trivial⟩

end ExpertCache

/-! ## Runs -/

section Runs

variable {env : CacheEnv Scores}

/-- The slot table is sound, and so will it be after every statement the call still runs. -/
structure CacheMachine.Sound (env : CacheEnv Scores) (machine : CacheMachine Scores) : Prop where
  table : machine.cache.TableSound env
  planned : machine.cache.Planned env machine.todo

theorem CacheMachine.Sound.step {machine : CacheMachine Scores} (sound : machine.Sound env)
    (mutantOff : env.mutantEarly = false) (action : CacheAction Scores) :
    (machine.step env action).Sound env := by
  obtain ⟨cache, todo⟩ := machine
  obtain ⟨table, planned⟩ := sound
  cases action with
  | device index =>
      simp only [CacheMachine.step]
      split
      next ready => exact ⟨table.advance ready, planned.advance index⟩
      next => exact ⟨table, planned⟩
  | enter call query =>
      cases todo with
      | nil =>
          have honest : ∀ event, (query event && decide (event ∈ cache.device.ran)) = true →
              event ∈ cache.device.ran := by
            intro event reports
            exact of_decide_eq_true (Bool.and_eq_true_iff.mp reports).2
          obtain ⟨entered, next⟩ := ExpertCache.enter_sound table honest call
          exact ⟨entered, next⟩
      | cons act rest => exact ⟨table, planned⟩
  | act =>
      cases todo with
      | nil => exact ⟨table, planned⟩
      | cons act rest => exact ⟨table.perform planned.1 mutantOff, planned.2⟩

theorem CacheMachine.boot_sound : (CacheMachine.boot env).Sound env := by
  refine ⟨⟨?_, ?_, ?_, causal_empty⟩, trivial⟩
  · intro key slot shown
    cases shown
  · intro slot member
    exact absurd member List.not_mem_nil
  · intro _ slot
    exact ⟨List.not_mem_nil, fun key => nofun⟩

/-- Every entry of the device slot table shows a slot that its key owns and whose last
copies, all of that key, have landed. -/
theorem slotTable_ready (mutantOff : env.mutantEarly = false)
    (actions : List (CacheAction Scores)) (key slot : Nat)
    (shown : (serveAll (CacheMachine.step env) actions
      (CacheMachine.boot env)).cache.dmap key = some slot) :
    (serveAll (CacheMachine.step env) actions (CacheMachine.boot env)).cache.key slot = some key ∧
      (serveAll (CacheMachine.step env) actions (CacheMachine.boot env)).cache.Landed env slot
        key := by
  have sound : ∀ machine : CacheMachine Scores, machine.Sound env →
      (serveAll (CacheMachine.step env) actions machine).Sound env := by
    clear shown
    induction actions with
    | nil => exact fun _ sound => sound
    | cons action rest inductionHypothesis =>
        exact fun machine sound => inductionHypothesis _ (sound.step mutantOff action)
  exact (sound _ CacheMachine.boot_sound).table.published key slot shown

end Runs

/-- A miss of expert 3 into a cache of two slots, run to its end by the host and then by the
device, and a reap. -/
def publishedMiss : List (CacheAction Unit) :=
  [.enter (.init ⟨2, 8, fun _ => true, none, 480, true⟩) fun _ => true,
    .enter (.resident 0 3 8 .compute .ok .ok) fun _ => true] ++
  List.replicate 11 .act ++ (List.range 5).map .device ++ [.enter .reap fun _ => true]

theorem slotTable_ready_publishedMiss :
    (serveAll (CacheMachine.step plainEnv) publishedMiss
        (CacheMachine.boot plainEnv)).cache.dmap 3 = some 0 ∧
      (serveAll (CacheMachine.step plainEnv) publishedMiss
        (CacheMachine.boot plainEnv)).cache.Landed plainEnv 0 3 := by
  have shown : (serveAll (CacheMachine.step plainEnv) publishedMiss
      (CacheMachine.boot plainEnv)).cache.dmap 3 = some 0 := by decide
  exact ⟨shown, (slotTable_ready rfl publishedMiss 3 0 shown).2⟩

end KairosEngine.Cuda
