import KairosEngine.Cuda.ExpertStaging

/-!
# Every kernel reads its own expert

Pass 1 of the overlap, the grouped launch, the loop, the prefetch and the admissions take waits
of their own.  Where each of them finds nothing it takes no wait for, every kernel reads the
slot as it was filled for its expert, in every order the device may choose.
-/

namespace KairosEngine.Cuda

open KairosEngine.Library Device

variable {Scores : Type}

/-! ## What the waits leave out -/

namespace FfnHost

/-- The branches that take no wait have nothing to wait for.  An admission has an event, and its
victim is no slot that a prefetch is still filling.  Pass 1 evicts no slot it has resolved, and
neither does the prefetch behind it.  A slot that is used without its own event is no slot an
admission or a prefetch is still filling, and neither is the victim of a miss on the decode
stream. -/
def WaitsSuffice (env : CacheEnv Scores) (query : Nat → Bool) (host : FfnHost Scores) :
    FfnAct → Prop
  | .admitOne L e =>
      host.cache.map (host.key L e) = none → host.cache.ringOpen env query = true →
        let victim := host.cache.moeEvVictim env
        host.cache.pev victim ≠ none ∧
          (host.cache.pend victim = false → SlotSettled host.cache.device victim .compute)
  | .pass1 i =>
      host.cache.map (host.key host.L (host.expert i)) = none →
        ∀ place picked, host.pass place = some picked → picked.slot ≠ host.cache.moeEvVictim env
  | .prefetch e =>
      host.cache.map (host.key (host.L + 1) e) = none → host.cache.dmapOn = false →
        ∀ place picked, host.pass place = some picked → picked.slot ≠ host.cache.moeEvVictim env
  | .use grouped i =>
      (grouped && host.oncpu i) = false →
        let unawaited := grouped = true ∨ host.pfAwaited (host.expert i) = false
        if host.ovl then
          ∀ picked, host.pass i = some picked → picked.copied = false →
            host.cache.pend picked.slot = true ∨ unawaited →
              SlotSettled host.cache.device picked.slot .compute
        else
          match host.cache.map (host.key host.L (host.expert i)) with
          | none =>
              let victim := host.cache.moeEvVictim env
              (host.cache.pend victim = false →
                SlotSettled host.cache.device victim .compute) ∧
                  ∀ given ∈ host.group, given.1 ≠ victim
          | some slot =>
              host.cache.pend slot = false → unawaited →
                SlotSettled host.cache.device slot .compute
  | _ => True

end FfnHost

/-- `cudaEventQuery` reports an event only after the device has run its record. -/
def FfnMachine.query (machine : FfnMachine Scores) (query : Nat → Bool) (event : Nat) : Bool :=
  query event && decide (event ∈ machine.host.cache.device.ran)

def FfnMachine.WaitsSuffice (env : CacheEnv Scores) (action : FfnAction)
    (machine : FfnMachine Scores) : Prop :=
  match action, machine.todo with
  | .act query, act :: _ => machine.host.WaitsSuffice env (machine.query query) act
  | _, _ => True

/-! ## The order of the statements -/

def FfnAct.rank : FfnAct → Nat
  | .flush => 0
  | .admitOne _ _ => 1
  | .sync | .setLane _ _ => 2
  | .ready => 3
  | .pass1 _ => 4
  | .readyNow _ => 5
  | .use _ _ | .launch => 6
  | .admReady | .endLane _ => 7
  | .pfOpen | .prefetch _ | .pfClose => 8

/-- No statement goes back, a call flushes the queue and enters the overlap once and passes each
place once. -/
def FfnAct.Ahead (first second : FfnAct) : Prop :=
  first.rank ≤ second.rank ∧ second ≠ .flush ∧ (second = .ready → first ≠ .ready) ∧
    ∀ i, second = .pass1 i → first ≠ .pass1 i

/-- What a call has left to do, and what its variables hold meanwhile. -/
structure Shape (host : FfnHost Scores) (todo : List FfnAct) : Prop where
  ahead : todo.Pairwise FfnAct.Ahead
  given : host.group ≠ [] → ∀ act ∈ todo, 6 ≤ act.rank
  queued : host.admq ≠ [] → (∃ rest, todo = .flush :: rest) ∨ ∀ act ∈ todo, 7 ≤ act.rank
  late : host.ovl = true → ∀ act ∈ todo, 4 ≤ act.rank
  passing : ∀ i, .pass1 i ∈ todo →
    (host.ovl = true ∨ .ready ∈ todo) ∧ (∃ grouped, .use grouped i ∈ todo) ∧ host.pass i = none
  fetching : ∀ e, .prefetch e ∈ todo → (host.ovl = true ∨ .ready ∈ todo) ∧ e < host.cache.ne
  places : ∀ grouped i, .use grouped i ∈ todo → i < host.active.length
  experts : ∀ e ∈ host.active, e < host.cache.ne
  distinct : host.active.Nodup
  serial : host.ovl = false → ∀ i, host.pass i = none
  onCpu : ∀ k, .readyNow k ∈ todo ∨ host.oncpu k = true → host.ovl = false ∧ .ready ∉ todo

/-! ## The invariant of a call -/

/-- Pass 1 has handed out the slot. -/
def FfnHost.Held (host : FfnHost Scores) (slot : Nat) : Prop :=
  ∃ i picked, host.pass i = some picked ∧ picked.slot = slot

/-- The event of the slot's copy is still to be awaited by the expert it was copied for. -/
def FfnHost.Awaiting (host : FfnHost Scores) (todo : List FfnAct) (L e slot : Nat) : Prop :=
  ∃ grouped i, .use grouped i ∈ todo ∧ host.ovl = true ∧ host.L = L ∧ host.expert i = e ∧
    host.pass i = some { slot, copied := true }

/-- An expert that the last prefetch for its layer copied waits for nothing beyond its event. -/
def Fetched (cache : ExpertCache Scores) (pfHas : Nat → Nat → Bool) (pfEv : Nat → Nat → Option Nat)
    (awaiting : Nat → Nat → Nat → Prop) : Prop :=
  ∀ L e slot, e < cache.ne → pfHas (L % 2) e = true →
    cache.map (L * cache.ne + e) = some slot →
      cache.pend slot = true ∨ SlotSettled cache.device slot .compute ∨
        (∃ event, pfEv (L % 2) e = some event ∧ SlotCovered cache.device slot event) ∨
          awaiting L e slot

/-- The overlap stream may fill any slot but those handed out. -/
structure Overlapping (cache : ExpertCache Scores) (kernels : List Kernel) (held : Nat → Prop) :
    Prop where
  slots : ∀ slot, cache.pend slot = true ∨ SlotSettled cache.device slot .overlap
  kernels : ∀ kernel ∈ kernels,
    cache.device.Settled .overlap kernel.ticket ∨ held kernel.slot

structure HostSound (env : CacheEnv Scores) (host : FfnHost Scores) (todo : List FfnAct) : Prop where
  cache : CacheSound env host.kernels none host.cache
  off : host.cache.slots = 0 → ∀ key, host.cache.map key = none
  fetched : Fetched host.cache host.pfHas host.pfEv (host.Awaiting todo)
  overlapping : host.ovl = true → Overlapping host.cache host.kernels host.Held
  picked : ∀ grouped i picked, .use grouped i ∈ todo → host.pass i = some picked →
    host.cache.map (host.key host.L (host.expert i)) = some picked.slot ∧
      (picked.copied = true → ∃ event, host.moeEv i = some event ∧
        SlotCovered host.cache.device picked.slot event)
  given : .launch ∈ todo → ∀ given ∈ host.group,
    host.cache.map given.2 = some given.1 ∧ SlotSettled host.cache.device given.1 .compute ∧
      (host.ovl = true → host.Held given.1)

/-- Behind the event of the last CPU layer the decode stream got nothing but records. -/
structure EventMark (cache : ExpertCache Scores) (kernels : List Kernel) (event : Nat) : Prop where
  recorded : cache.admReady = some event
  present : cache.device.log[event]? = some { stream := .compute, work := none, after := none }
  quiet : ∀ j operation, event < j → cache.device.log[j]? = some operation →
    operation.stream = .compute → operation = { stream := .compute, work := none, after := none }
  kernels : ∀ kernel ∈ kernels, kernel.ticket < event

/-- While experts are queued, or about to be admitted, the event of their layer stands. -/
def Queued (host : FfnHost Scores) (todo : List FfnAct) : Prop :=
  (host.admq ≠ [] ∨ ∃ L e, .admitOne L e ∈ todo) →
    ∃ event, EventMark host.cache host.kernels event

structure FfnMachine.Sound (env : CacheEnv Scores) (machine : FfnMachine Scores) : Prop where
  host : HostSound env machine.host machine.todo
  shape : Shape machine.host machine.todo
  queued : Queued machine.host machine.todo

/-! ## What a statement keeps -/

/-- The slots apart from the victim kept their experts, and what was ordered still is. -/
structure Kept (victim : Option Nat) (before after : ExpertCache Scores) : Prop where
  slots_eq : after.slots = before.slots
  ne_eq : after.ne = before.ne
  map : ∀ key slot, victim ≠ some slot →
    (after.map key = some slot ↔ before.map key = some slot)
  pend : ∀ slot, victim ≠ some slot → after.pend slot = before.pend slot ∨
    after.pend slot = false ∧ SlotLanded after.device slot
  landed : ∀ slot, victim ≠ some slot → SlotLanded before.device slot →
    SlotLanded after.device slot
  settled : ∀ slot stream, victim ≠ some slot → SlotSettled before.device slot stream →
    SlotSettled after.device slot stream
  covered : ∀ slot event, victim ≠ some slot → SlotCovered before.device slot event →
    SlotCovered after.device slot event
  issued : ∀ stream i, before.device.Settled stream i → after.device.Settled stream i

section Keeping

variable {env : CacheEnv Scores} {kernels : List Kernel} {victim : Option Nat}
variable {before middle after : ExpertCache Scores} {stream : CudaStream} {slot key event : Nat}

theorem Kept.refl : Kept victim before before :=
  ⟨rfl, rfl, fun _ _ _ => Iff.rfl, fun _ _ => Or.inl rfl, fun _ _ landed => landed,
    fun _ _ _ settled => settled, fun _ _ _ covered => covered, fun _ _ settled => settled⟩

theorem Kept.of_none (kept : Kept none before after) : Kept victim before after :=
  ⟨kept.slots_eq, kept.ne_eq, fun key slot _ => kept.map key slot nofun,
    fun slot _ => kept.pend slot nofun, fun slot _ => kept.landed slot nofun,
    fun slot stream _ => kept.settled slot stream nofun,
    fun slot event _ => kept.covered slot event nofun, kept.issued⟩

theorem Kept.trans (first : Kept victim before middle) (second : Kept victim middle after) :
    Kept victim before after := by
  refine ⟨second.slots_eq.trans first.slots_eq, second.ne_eq.trans first.ne_eq,
    fun key slot away => (second.map key slot away).trans (first.map key slot away),
    fun slot away => ?_, fun slot away down => second.landed slot away (first.landed slot away down),
    fun slot stream away settled => ?_, fun slot event away covered => ?_,
    fun stream i settled => second.issued stream i (first.issued stream i settled)⟩
  · rcases second.pend slot away with same | lowered
    · rcases first.pend slot away with kept | ⟨low, down⟩
      · exact Or.inl (same.trans kept)
      · exact Or.inr ⟨same.trans low, second.landed slot away down⟩
    · exact Or.inr lowered
  · exact second.settled slot stream away (first.settled slot stream away settled)
  · exact second.covered slot event away (first.covered slot event away covered)

theorem Frame.landed (frame : Frame victim stream before after) (away : victim ≠ some slot)
    (landed : SlotLanded before.device slot) : SlotLanded after.device slot := by
  intro c copy
  have ran := landed c (frame.copyInto away copy)
  obtain ⟨operations, grown, _⟩ := frame.issues
  rw [grown]
  exact ran

theorem Frame.kept (frame : Frame victim stream before after)
    (map : ∀ key slot, victim ≠ some slot →
      (after.map key = some slot ↔ before.map key = some slot)) : Kept victim before after :=
  ⟨frame.slots_eq, frame.ne_eq, map, fun slot away => Or.inl (frame.pend slot away),
    fun _ away landed => frame.landed away landed,
    fun _ _ away settled => frame.slotSettled away settled,
    fun _ _ away covered => frame.slotCovered away covered, fun _ _ settled => frame.settled settled⟩

theorem Idled.kept (idled : Idled stream before after) : Kept none before after :=
  idled.frame.kept fun key slot _ => by rw [idled.map_eq]

theorem Replaced.kept {victim : Nat} (replaced : Replaced env kernels victim key stream before after) :
    Kept (some victim) before after :=
  replaced.frame.kept fun other slot away =>
    replaced.others other slot fun same => away (congrArg some same.symm)

theorem Lowered.kept (lowered : Lowered before after) : Kept none before after := by
  refine ⟨lowered.slots_eq, lowered.ne_eq, fun key slot _ => ?_, fun slot _ => ?_,
    fun slot _ landed => ?_, fun slot stream _ settled => ?_, fun slot event _ covered => ?_,
    fun stream i settled => ?_⟩
  · rw [lowered.map_eq]
  · rw [lowered.device_eq]
    exact lowered.pend slot
  · rwa [lowered.device_eq]
  · rwa [lowered.device_eq]
  · rwa [lowered.device_eq]
  · rwa [lowered.device_eq]

theorem Kept.mapped (kept : Kept victim before after) (away : victim ≠ some slot)
    (known : before.map key = some slot) : after.map key = some slot :=
  (kept.map key slot away).mpr known

/-- A slot apart from the victim that was pending is pending, or its copies have landed. -/
theorem Kept.pending (kept : Kept victim before after) (away : victim ≠ some slot)
    (raised : before.pend slot = true) (stream : CudaStream) :
    after.pend slot = true ∨ SlotSettled after.device slot stream := by
  rcases kept.pend slot away with same | ⟨_, landed⟩
  · exact Or.inl (same.trans raised)
  · exact Or.inr (landed.settled stream)

variable {pfHas : Nat → Nat → Bool} {pfEv : Nat → Nat → Option Nat}
variable {awaiting awaiting' : Nat → Nat → Nat → Prop} {held held' : Nat → Prop}

theorem Fetched.away {L e : Nat} (fetched : Fetched before pfHas pfEv awaiting)
    (kept : Kept victim before after) (away : victim ≠ some slot) (inside : e < after.ne)
    (has : pfHas (L % 2) e = true) (known : after.map (L * after.ne + e) = some slot) :
    after.pend slot = true ∨ SlotSettled after.device slot .compute ∨
      (∃ event, pfEv (L % 2) e = some event ∧ SlotCovered after.device slot event) ∨
        awaiting L e slot := by
  rw [kept.map _ slot away, kept.ne_eq] at known
  rw [kept.ne_eq] at inside
  rcases fetched L e slot inside has known with raised | settled | ⟨event, recorded, covered⟩ | waits
  · rcases kept.pending away raised .compute with still | settled
    · exact Or.inl still
    · exact Or.inr (Or.inl settled)
  · exact Or.inr (Or.inl (kept.settled slot .compute away settled))
  · exact Or.inr (Or.inr (Or.inl ⟨event, recorded, kept.covered slot event away covered⟩))
  · exact Or.inr (Or.inr (Or.inr waits))

theorem Fetched.kept (fetched : Fetched before pfHas pfEv awaiting)
    (kept : Kept victim before after)
    (fresh : ∀ L e slot, victim = some slot → e < after.ne → pfHas (L % 2) e = true →
      after.map (L * after.ne + e) = some slot →
        after.pend slot = true ∨ SlotSettled after.device slot .compute ∨
          (∃ event, pfEv (L % 2) e = some event ∧ SlotCovered after.device slot event) ∨
            awaiting' L e slot)
    (mono : ∀ L e slot, awaiting L e slot →
      SlotSettled after.device slot .compute ∨ awaiting' L e slot) :
    Fetched after pfHas pfEv awaiting' := by
  intro L e slot inside has known
  by_cases replaced : victim = some slot
  · exact fresh L e slot replaced inside has known
  · rcases fetched.away kept replaced inside has known with raised | settled | covered | waits
    · exact Or.inl raised
    · exact Or.inr (Or.inl settled)
    · exact Or.inr (Or.inr (Or.inl covered))
    · rcases mono L e slot waits with settled | later
      · exact Or.inr (Or.inl settled)
      · exact Or.inr (Or.inr (Or.inr later))

theorem Overlapping.kept (overlapping : Overlapping before kernels held)
    (kept : Kept victim before after)
    (fresh : ∀ slot, victim = some slot →
      after.pend slot = true ∨ SlotSettled after.device slot .overlap)
    (mono : ∀ slot, held slot → held' slot) : Overlapping after kernels held' := by
  refine ⟨fun slot => ?_, fun kernel member => ?_⟩
  · by_cases replaced : victim = some slot
    · exact fresh slot replaced
    · rcases overlapping.slots slot with raised | settled
      · exact kept.pending replaced raised .overlap
      · exact Or.inr (kept.settled slot .overlap replaced settled)
  · rcases overlapping.kernels kernel member with settled | held
    · exact Or.inl (kept.issued .overlap kernel.ticket settled)
    · exact Or.inr (mono kernel.slot held)

end Keeping

/-- A host of which only the cache changed. -/
theorem HostSound.kept {env : CacheEnv Scores} {host : FfnHost Scores} {todo : List FfnAct}
    {victim : Option Nat} {after : ExpertCache Scores} (sound : HostSound env host todo)
    (cache : CacheSound env host.kernels none after) (kept : Kept victim host.cache after)
    (on : ∀ slot, victim = some slot → after.slots ≠ 0)
    (fetched : ∀ slot, victim = some slot →
      after.pend slot = true ∨ SlotSettled after.device slot .compute)
    (overlapping : ∀ slot, victim = some slot → host.ovl = true →
      after.pend slot = true ∨ SlotSettled after.device slot .overlap)
    (picked : ∀ grouped i picked, .use grouped i ∈ todo → host.pass i = some picked →
      victim ≠ some picked.slot)
    (given : .launch ∈ todo → ∀ given ∈ host.group, victim ≠ some given.1) :
    HostSound env { host with cache := after } todo := by
  refine ⟨cache, fun off key => ?_, ?_, fun overlaps => ?_, fun grouped i slot listed passed => ?_,
    fun listed entry member => ?_⟩
  · cases known : after.map key with
    | none => rfl
    | some slot =>
        have away : victim ≠ some slot := fun same => on slot same off
        rw [kept.map key slot away, sound.off (kept.slots_eq.symm.trans off) key] at known
        cases known
  · refine sound.fetched.kept kept (fun L e slot same _ _ _ => ?_) fun L e slot waits => Or.inr waits
    rcases fetched slot same with raised | settled
    · exact Or.inl raised
    · exact Or.inr (Or.inl settled)
  · exact (sound.overlapping overlaps).kept kept (fun slot same => overlapping slot same overlaps)
      fun _ held => held
  · obtain ⟨known, copied⟩ := sound.picked grouped i slot listed passed
    have away := picked grouped i slot listed passed
    refine ⟨?_, fun new => ?_⟩
    · have stays := kept.mapped away known
      simp only [FfnHost.key, FfnHost.expert] at stays ⊢
      rw [kept.ne_eq]
      exact stays
    · obtain ⟨event, recorded, covered⟩ := copied new
      exact ⟨event, recorded, kept.covered slot.slot event away covered⟩
  · obtain ⟨known, settled, held⟩ := sound.given listed entry member
    have away := given listed entry member
    exact ⟨kept.mapped away known, kept.settled entry.1 .compute away settled, held⟩

/-- Where no slot was replaced nothing more is asked. -/
theorem HostSound.kept_none {env : CacheEnv Scores} {host : FfnHost Scores} {todo : List FfnAct}
    {after : ExpertCache Scores} (sound : HostSound env host todo)
    (cache : CacheSound env host.kernels none after) (kept : Kept none host.cache after) :
    HostSound env { host with cache := after } todo :=
  sound.kept cache kept nofun nofun nofun (fun _ _ _ _ _ => nofun) fun _ _ _ => nofun

/-- Other statements may be left, as long as they use the same experts. -/
theorem HostSound.of_todo {env : CacheEnv Scores} {host : FfnHost Scores} {todo later : List FfnAct}
    (sound : HostSound env host todo)
    (uses : ∀ grouped i, .use grouped i ∈ later ↔ .use grouped i ∈ todo)
    (launches : .launch ∈ later → .launch ∈ todo) : HostSound env host later := by
  obtain ⟨cache, off, fetched, overlapping, picked, given⟩ := sound
  refine ⟨cache, off, fun L e slot inside has known => ?_, overlapping,
    fun grouped i slot listed => picked grouped i slot ((uses grouped i).mp listed),
    fun listed => given (launches listed)⟩
  rcases fetched L e slot inside has known with raised | settled | covered | ⟨grouped, i, listed, waits⟩
  · exact Or.inl raised
  · exact Or.inr (Or.inl settled)
  · exact Or.inr (Or.inr (Or.inl covered))
  · exact Or.inr (Or.inr (Or.inr ⟨grouped, i, (uses grouped i).mpr listed, waits⟩))

/-- A statement that uses no expert may be dropped. -/
theorem HostSound.drop {env : CacheEnv Scores} {host : FfnHost Scores} {act : FfnAct}
    {rest : List FfnAct} (sound : HostSound env host (act :: rest))
    (other : ∀ grouped i, act ≠ .use grouped i) : HostSound env host rest := by
  refine sound.of_todo (fun grouped i => ?_) (List.mem_cons_of_mem act)
  constructor
  · exact List.mem_cons_of_mem act
  · intro listed
    rcases List.mem_cons.mp listed with same | later
    · exact absurd same.symm (other grouped i)
    · exact later

end KairosEngine.Cuda
