import KairosEngine.Cuda.CacheDirectory
import KairosEngine.Cuda.ExpertLayer

/-!
# The order of copies and kernels

A copy into a slot has to run behind the copies before it and behind the kernels that were given
the slot.  The directory and the pending flags say which streams that is ensured for: the
admission stream through the event of the slot, the decode stream or the overlap stream
otherwise.
-/

namespace KairosEngine.Cuda

open KairosEngine.Library Device

variable {Scores : Type}

/-! ## Slots and streams -/

abbrev ExpertDevice := Device CudaStream ExpertWork

def CopyInto (device : ExpertDevice) (slot c : Nat) : Prop :=
  ∃ operation array key, device.log[c]? = some operation ∧
    operation.work = some (.copy slot array key)

/-- What is issued to the stream next finds the copies into the slot done. -/
def SlotSettled (device : ExpertDevice) (slot : Nat) (stream : CudaStream) : Prop :=
  ∀ c, CopyInto device slot c → device.Settled stream c

def SlotCovered (device : ExpertDevice) (slot event : Nat) : Prop :=
  ∀ c, CopyInto device slot c → device.Covered event c

def SlotLanded (device : ExpertDevice) (slot : Nat) : Prop :=
  ∀ c, CopyInto device slot c → c ∈ device.ran

/-- A kernel runs behind the copies that were issued before it and ahead of the later ones, and
those before it end with the copies of its expert. -/
structure KernelSound (env : CacheEnv Scores) (device : ExpertDevice) (kernel : Kernel) : Prop where
  present : device.log[kernel.ticket]? = some { stream := .compute, work := none, after := none }
  behind : ∀ c < kernel.ticket, CopyInto device kernel.slot c → device.Sooner c kernel.ticket
  ahead : ∀ c, kernel.ticket < c → CopyInto device kernel.slot c → device.Sooner kernel.ticket c
  reads : ∀ array, env.fills array = true → ∃ c < kernel.ticket, ∃ operation,
    device.log[c]? = some operation ∧
      operation.work = some (.copy kernel.slot array kernel.key) ∧
        ∀ later other, c < later → later < kernel.ticket → device.log[later]? = some other →
          other.work.any (ExpertWork.into kernel.slot array) = false

/-- The invariant of the cache; `busy` is the slot a call is filling, if any. -/
structure CacheSound (env : CacheEnv Scores) (kernels : List Kernel) (busy : Option Nat)
    (cache : ExpertCache Scores) : Prop where
  ordered : cache.device.Ordered
  copies : ∀ slot first second, first < second → CopyInto cache.device slot first →
    CopyInto cache.device slot second → cache.device.Sooner first second
  kernels : ∀ kernel ∈ kernels, KernelSound env cache.device kernel
  owner : ∀ key slot, cache.map key = some slot → cache.key slot = some key
  mapped : ∀ key slot, cache.key slot = some key → busy ≠ some slot → cache.map key = some slot
  content : ∀ key slot, cache.map key = some slot → ∀ array, env.fills array = true →
    ∃ c operation, Latest cache.device (ExpertWork.into slot array) c operation ∧
      operation.work = some (.copy slot array key)
  pending : ∀ slot, busy ≠ some slot → cache.pend slot = true →
    ∃ event, cache.pev slot = some (some event) ∧ SlotCovered cache.device slot event
  placed : ∀ slot, busy ≠ some slot → cache.pend slot = false →
    SlotSettled cache.device slot .compute ∨ SlotSettled cache.device slot .overlap

/-! ## Issuing an operation -/

section Issue

variable {env : CacheEnv Scores} {device : ExpertDevice} {slot c : Nat} {stream : CudaStream}

theorem CopyInto.issued (copy : CopyInto device slot c) : c < device.log.length := by
  obtain ⟨operation, _, _, present, _⟩ := copy
  exact (List.getElem?_eq_some_iff.mp present).1

/-- A copy is an old one or the operation that was just issued. -/
theorem CopyInto.old_or_new {operation : Issued CudaStream ExpertWork}
    (copy : CopyInto (device.issue operation) slot c) :
    CopyInto device slot c ∨
      c = device.ticket ∧ ∃ array key, operation.work = some (.copy slot array key) := by
  obtain ⟨found, array, key, present, work⟩ := copy
  by_cases early : c < device.log.length
  · rw [log_issue_of_lt early] at present
    exact Or.inl ⟨found, array, key, present, work⟩
  · have inside := (List.getElem?_eq_some_iff.mp present).1
    rw [Device.issue, List.length_append, List.length_singleton] at inside
    obtain rfl : c = device.ticket := by
      unfold ticket
      omega
    rw [log_issue_ticket, Option.some.injEq] at present
    exact Or.inr ⟨rfl, array, key, present ▸ work⟩

theorem CopyInto.issue (copy : CopyInto device slot c) (operation : Issued CudaStream ExpertWork) :
    CopyInto (device.issue operation) slot c := by
  obtain ⟨found, array, key, present, work⟩ := copy
  refine ⟨found, array, key, ?_, work⟩
  rw [log_issue_of_lt (List.getElem?_eq_some_iff.mp present).1]
  exact present

/-- The slot stays settled for the stream its copies go to. -/
theorem SlotSettled.issue {operation : Issued CudaStream ExpertWork}
    (settled : SlotSettled device slot stream)
    (own : ∀ array key, operation.work = some (.copy slot array key) →
      operation.stream = stream) : SlotSettled (device.issue operation) slot stream := by
  intro c copy
  rcases copy.old_or_new with old | ⟨rfl, array, key, work⟩
  · exact (settled c old).issue operation
  · rw [← own array key work]
    exact settled_ticket device operation

theorem SlotCovered.issue {event : Nat} {operation : Issued CudaStream ExpertWork}
    (covered : SlotCovered device slot event)
    (elsewhere : ∀ array key, operation.work ≠ some (.copy slot array key)) :
    SlotCovered (device.issue operation) slot event := by
  intro c copy
  rcases copy.old_or_new with old | ⟨_, array, key, work⟩
  · exact (covered c old).issue operation
  · exact absurd work (elsewhere array key)

/-- An event recorded on the stream covers what is settled for it. -/
theorem SlotSettled.record (settled : SlotSettled device slot stream) :
    SlotCovered (device.record stream) slot device.ticket := by
  intro c copy
  rcases copy.old_or_new with old | ⟨_, array, key, work⟩
  · exact @Settled.covered_ticket _ _ device c ⟨stream, none, none⟩ (settled c old)
  · cases work

theorem SlotCovered.wait {event : Nat} (covered : SlotCovered device slot event)
    (stream : CudaStream) : SlotSettled (device.wait stream (some event)) slot stream := by
  intro c copy
  rcases copy.old_or_new with old | ⟨_, array, key, work⟩
  · exact (covered c old).settled_wait stream
  · cases work

theorem SlotLanded.settled (landed : SlotLanded device slot) (stream : CudaStream) :
    SlotSettled device slot stream :=
  fun c copy => Or.inl (landed c copy)

theorem KernelSound.issue {kernel : Kernel} (sound : KernelSound env device kernel)
    {operation : Issued CudaStream ExpertWork} (ordered : device.Ordered)
    (fits : ∀ array key, operation.work = some (.copy kernel.slot array key) →
      device.Settled operation.stream kernel.ticket) :
    KernelSound env (device.issue operation) kernel := by
  have issued := (List.getElem?_eq_some_iff.mp sound.present).1
  refine ⟨?_, fun c before copy => ?_, fun c later copy => ?_, fun array fills => ?_⟩
  · rw [log_issue_of_lt issued]
    exact sound.present
  · rcases copy.old_or_new with old | ⟨rfl, _⟩
    · exact (sound.behind c before old).issue operation
    · exact absurd (Nat.lt_trans before issued) (Nat.lt_irrefl _)
  · rcases copy.old_or_new with old | ⟨rfl, array, key, work⟩
    · exact (sound.ahead c later old).issue operation
    · exact (fits array key work).sooner_ticket ordered
  · obtain ⟨c, before, found, present, work, last⟩ := sound.reads array fills
    refine ⟨c, before, found, ?_, work, fun later other behind ahead there => ?_⟩
    · rw [log_issue_of_lt (Nat.lt_trans before issued)]
      exact present
    · rw [log_issue_of_lt (Nat.lt_trans ahead issued)] at there
      exact last later other behind ahead there

variable {kernels : List Kernel} {busy : Option Nat} {cache : ExpertCache Scores}

/-- An operation may be issued when a copy in it goes to the slot that is being filled, behind
the copies and the kernels of the slot. -/
theorem CacheSound.issue (sound : CacheSound env kernels busy cache)
    {operation : Issued CudaStream ExpertWork}
    (fits : ∀ slot array key, operation.work = some (.copy slot array key) →
      busy = some slot ∧ (∀ owner, cache.map owner ≠ some slot) ∧
        SlotSettled cache.device slot operation.stream ∧
          ∀ kernel ∈ kernels, kernel.slot = slot →
            cache.device.Settled operation.stream kernel.ticket) :
    CacheSound env kernels busy { cache with device := cache.device.issue operation } := by
  refine ⟨sound.ordered.issue operation, ?_, ?_, sound.owner, sound.mapped, ?_, ?_, ?_⟩
  · intro slot first second before copyFirst copySecond
    rcases copySecond.old_or_new with old | ⟨rfl, array, key, work⟩
    · rcases copyFirst.old_or_new with oldFirst | ⟨rfl, _⟩
      · exact (sound.copies slot first second before oldFirst old).issue operation
      · exact absurd (Nat.lt_trans before old.issued) (Nat.lt_irrefl _)
    · rcases copyFirst.old_or_new with oldFirst | ⟨rfl, _⟩
      · exact ((fits slot array key work).2.2.1 first oldFirst).sooner_ticket sound.ordered
      · exact absurd before (Nat.lt_irrefl _)
  · intro kernel member
    refine (sound.kernels kernel member).issue sound.ordered fun array key work => ?_
    exact (fits kernel.slot array key work).2.2.2 kernel member rfl
  · intro key slot known array fills
    obtain ⟨c, found, latest, work⟩ := sound.content key slot known array fills
    refine ⟨c, found, (extends_issue ?_).latest latest, work⟩
    cases done : operation.work with
    | none => rfl
    | some copied =>
        cases copied with
        | copy place part other =>
            rw [Option.any_some, ExpertWork.into, decide_eq_false_iff_not]
            rintro ⟨rfl, _⟩
            exact (fits place part other done).2.1 key known
  · intro slot other raised
    obtain ⟨event, recorded, covered⟩ := sound.pending slot other raised
    refine ⟨event, recorded, covered.issue fun array key work => ?_⟩
    exact other (fits slot array key work).1
  · intro slot other lowered
    have elsewhere : ∀ array key, operation.work ≠ some (.copy slot array key) :=
      fun array key work => other (fits slot array key work).1
    rcases sound.placed slot other lowered with compute | overlap
    · exact Or.inl (compute.issue fun array key work => absurd work (elsewhere array key))
    · exact Or.inr (overlap.issue fun array key work => absurd work (elsewhere array key))

end Issue

/-! ## What a call leaves alone -/

/-- Copies go to the victim only, and the decode stream gets nothing but records unless the copies
are issued to it. -/
def Fits (victim : Option Nat) (stream : CudaStream) (operation : Issued CudaStream ExpertWork) :
    Prop :=
  (∀ slot array key, operation.work = some (.copy slot array key) → victim = some slot) ∧
    (operation.stream = .compute → stream ≠ .compute →
      operation = { stream := .compute, work := none, after := none })

structure Frame (victim : Option Nat) (stream : CudaStream) (before after : ExpertCache Scores) :
    Prop where
  slots_eq : after.slots = before.slots
  ne_eq : after.ne = before.ne
  ready_eq : after.admReady = before.admReady
  on_eq : after.dmapOn = before.dmapOn
  pev : ∀ slot, victim ≠ some slot → after.pev slot = before.pev slot
  pend : ∀ slot, victim ≠ some slot → after.pend slot = before.pend slot
  issues : ∃ operations, after.device = before.device.issueAll operations ∧
    ∀ operation ∈ operations, Fits victim stream operation

section Frames

variable {env : CacheEnv Scores} {victim : Option Nat} {stream other : CudaStream}
variable {before middle after : ExpertCache Scores} {slot c i event : Nat}

theorem Frame.refl : Frame victim stream before before where
  slots_eq := rfl
  ne_eq := rfl
  ready_eq := rfl
  on_eq := rfl
  pev := fun _ _ => rfl
  pend := fun _ _ => rfl
  issues := ⟨[], by simp only [issueAll, List.append_nil], fun _ member => absurd member
    List.not_mem_nil⟩

theorem Frame.trans (first : Frame victim stream before middle)
    (second : Frame victim stream middle after) : Frame victim stream before after := by
  obtain ⟨early, earlyGrown, earlyFits⟩ := first.issues
  obtain ⟨late, lateGrown, lateFits⟩ := second.issues
  refine ⟨second.slots_eq.trans first.slots_eq, second.ne_eq.trans first.ne_eq,
    second.ready_eq.trans first.ready_eq, second.on_eq.trans first.on_eq, fun slot away => ?_,
    fun slot away => ?_, early ++ late, ?_, ?_⟩
  · rw [second.pev slot away, first.pev slot away]
  · rw [second.pend slot away, first.pend slot away]
  · rw [lateGrown, earlyGrown]
    simp only [issueAll, List.append_assoc]
  · intro operation member
    rcases List.mem_append.mp member with inEarly | inLate
    · exact earlyFits operation inEarly
    · exact lateFits operation inLate

/-- One operation was issued and nothing else changed. -/
theorem Frame.of_issue {operation : Issued CudaStream ExpertWork}
    (fits : Fits victim stream operation) :
    Frame victim stream before { before with device := before.device.issue operation } where
  slots_eq := rfl
  ne_eq := rfl
  ready_eq := rfl
  on_eq := rfl
  pev := fun _ _ => rfl
  pend := fun _ _ => rfl
  issues := ⟨[operation], rfl, fun _ member => List.mem_singleton.mp member ▸ fits⟩

theorem fits_record (stream other : CudaStream) : Fits victim stream ⟨other, none, none⟩ := by
  refine ⟨fun _ _ _ impossible => ?_, fun onCompute _ => ?_⟩
  · cases impossible
  · cases onCompute
    rfl

theorem fits_wait (stream : CudaStream) (event : Option Nat) :
    Fits victim stream ⟨stream, none, event⟩ := by
  refine ⟨fun _ _ _ impossible => ?_, fun onCompute away => absurd onCompute away⟩
  cases impossible

theorem fits_copy (stream : CudaStream) (slot key : Nat) (array : SlotArray) :
    Fits (some slot) stream ⟨stream, some (.copy slot array key), none⟩ := by
  refine ⟨fun place part owner same => ?_, fun onCompute away => absurd onCompute away⟩
  cases same
  rfl

theorem Frame.of_none (frame : Frame none stream before after) :
    Frame victim stream before after := by
  obtain ⟨slots_eq, ne_eq, ready_eq, on_eq, pev, pend, operations, grown, fits⟩ := frame
  refine ⟨slots_eq, ne_eq, ready_eq, on_eq, fun slot _ => pev slot nofun,
    fun slot _ => pend slot nofun, operations, grown, fun operation member => ?_⟩
  obtain ⟨copies, plain⟩ := fits operation member
  exact ⟨fun slot array key work => absurd (copies slot array key work) nofun, plain⟩

theorem Frame.copyInto (frame : Frame victim stream before after) (away : victim ≠ some slot)
    (copy : CopyInto after.device slot c) : CopyInto before.device slot c := by
  obtain ⟨operations, grown, fits⟩ := frame.issues
  rw [grown] at copy
  obtain ⟨operation, array, key, present, work⟩ := copy
  by_cases early : c < before.device.log.length
  · rw [issueAll, List.getElem?_append_left early] at present
    exact ⟨operation, array, key, present, work⟩
  · rw [issueAll, List.getElem?_append_right (Nat.le_of_not_lt early)] at present
    exact absurd ((fits operation (List.mem_of_getElem? present)).1 slot array key work) away

theorem Frame.settled (frame : Frame victim stream before after)
    (settled : before.device.Settled other i) : after.device.Settled other i := by
  obtain ⟨operations, grown, _⟩ := frame.issues
  rw [grown]
  exact settled.issueAll operations

theorem Frame.slotSettled (frame : Frame victim stream before after) (away : victim ≠ some slot)
    (settled : SlotSettled before.device slot other) : SlotSettled after.device slot other :=
  fun c copy => frame.settled (settled c (frame.copyInto away copy))

theorem Frame.slotCovered (frame : Frame victim stream before after) (away : victim ≠ some slot)
    (covered : SlotCovered before.device slot event) : SlotCovered after.device slot event := by
  intro c copy
  have old := covered c (frame.copyInto away copy)
  obtain ⟨operations, grown, _⟩ := frame.issues
  rw [grown]
  exact old.issueAll operations

end Frames

/-- The statement is about the victim and issues to the stream. -/
def HostAct.Within (victim : Nat) (stream : CudaStream) : HostAct → Prop
  | .invalidate slot behind => slot = victim ∧ (behind = none ∨ behind = some stream)
  | .await slot other => slot = victim ∧ other = stream
  | .awaitReady => stream = .admission
  | .copy other slot _ _ => other = stream ∧ slot = victim
  | .recordFilled slot other => slot = victim ∧ other = stream
  | .unmap slot | .clearPend slot | .disown slot | .own slot _ | .setPend slot | .issued slot _
  | .stamp slot | .ringPut _ slot => slot = victim
  | .touch _ => True

namespace ExpertCache

variable {env : CacheEnv Scores} {cache : ExpertCache Scores} {victim : Nat} {stream : CudaStream}

/-- An invalidation issues nothing but a record and a wait for it. -/
theorem invalidate_frame {behind : Option CudaStream} (slot : Nat)
    (ordered : behind = none ∨ behind = some stream) :
    Frame none stream cache (cache.perform env (.invalidate slot behind)) := by
  simp only [perform, hf2Invalidate]
  split
  next =>
    obtain rfl | rfl := ordered
    · exact ⟨rfl, rfl, rfl, rfl, fun _ _ => rfl, fun _ _ => rfl, Frame.refl.issues⟩
    · refine ⟨rfl, rfl, rfl, rfl, fun _ _ => rfl, fun _ _ => rfl,
        [⟨.compute, none, none⟩, ⟨stream, none, some cache.device.ticket⟩], ?_, ?_⟩
      · simp only [wait, record, issue, issueAll, List.append_assoc, List.singleton_append]
      · intro operation member
        simp only [List.mem_cons, List.not_mem_nil, or_false] at member
        rcases member with rfl | rfl
        · exact fits_record stream .compute
        · exact fits_wait stream _
  next => exact Frame.refl

theorem perform_frame {act : HostAct} (within : act.Within victim stream) :
    Frame (some victim) stream cache (cache.perform env act) := by
  have elsewhere : ∀ {slot : Nat}, some victim ≠ some slot → slot ≠ victim :=
    fun away same => away (congrArg some same.symm)
  cases act with
  | invalidate slot behind => exact (invalidate_frame slot within.2).of_none
  | unmap slot =>
      simp only [perform]
      split
      next => exact ⟨rfl, rfl, rfl, rfl, fun _ _ => rfl, fun _ _ => rfl, Frame.refl.issues⟩
      next => exact Frame.refl
  | await slot other =>
      obtain ⟨rfl, rfl⟩ := within
      simp only [perform]
      split
      next => exact Frame.of_issue (fits_wait _ _)
      next => exact Frame.refl
  | awaitReady =>
      cases within
      exact Frame.of_issue (fits_wait _ _)
  | clearPend slot =>
      cases within
      exact ⟨rfl, rfl, rfl, rfl, fun _ _ => rfl,
        fun _ away => Function.update_of_ne (elsewhere away) _ _, Frame.refl.issues⟩
  | copy other slot array key =>
      obtain ⟨rfl, rfl⟩ := within
      exact Frame.of_issue (fits_copy _ _ _ _)
  | disown slot => exact ⟨rfl, rfl, rfl, rfl, fun _ _ => rfl, fun _ _ => rfl, Frame.refl.issues⟩
  | own slot key => exact ⟨rfl, rfl, rfl, rfl, fun _ _ => rfl, fun _ _ => rfl, Frame.refl.issues⟩
  | recordFilled slot other =>
      obtain ⟨rfl, rfl⟩ := within
      simp only [perform]
      split
      next =>
        refine ⟨rfl, rfl, rfl, rfl, fun _ away => Function.update_of_ne (elsewhere away) _ _,
          fun _ _ => rfl, [⟨other, none, none⟩], rfl, fun operation member => ?_⟩
        rw [List.mem_singleton.mp member]
        exact fits_record other other
      next => exact Frame.refl
  | setPend slot =>
      cases within
      simp only [perform]
      split
      next =>
        exact ⟨rfl, rfl, rfl, rfl, fun _ _ => rfl,
          fun _ away => Function.update_of_ne (elsewhere away) _ _, Frame.refl.issues⟩
      next => exact Frame.refl
  | issued slot key =>
      simp only [perform, hf2Issued, hf2UnpubAdd]
      repeat' split
      all_goals
        exact ⟨rfl, rfl, rfl, rfl, fun _ _ => rfl, fun _ _ => rfl, Frame.refl.issues⟩
  | stamp slot => exact ⟨rfl, rfl, rfl, rfl, fun _ _ => rfl, fun _ _ => rfl, Frame.refl.issues⟩
  | touch key => exact ⟨rfl, rfl, rfl, rfl, fun _ _ => rfl, fun _ _ => rfl, Frame.refl.issues⟩
  | ringPut index slot =>
      exact ⟨rfl, rfl, rfl, rfl, fun _ _ => rfl, fun _ _ => rfl, Frame.refl.issues⟩

theorem performAll_frame {acts : List HostAct} (within : ∀ act ∈ acts, act.Within victim stream)
    (cache : ExpertCache Scores) :
    Frame (some victim) stream cache (acts.foldl (perform env) cache) := by
  induction acts generalizing cache with
  | nil => exact Frame.refl
  | cons act rest inductionHypothesis =>
      exact (perform_frame (within act List.mem_cons_self)).trans
        (inductionHypothesis (fun other member => within other (List.mem_cons_of_mem _ member)) _)

end ExpertCache

end KairosEngine.Cuda
