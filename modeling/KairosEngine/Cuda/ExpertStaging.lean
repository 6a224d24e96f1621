import KairosEngine.Cuda.ExpertOrder

/-!
# What a call does to the order

A call that evicts a slot fills it behind what was copied into it and what read it; every other
call issues nothing but records and waits, and lowers the flag of a slot only when the copies
into it have landed.
-/

namespace KairosEngine.Cuda

open KairosEngine.Library Device

variable {Scores : Type}

section Filling

variable {env : CacheEnv Scores} {kernels : List Kernel} {victim key : Nat} {stream : CudaStream}
variable {cache : ExpertCache Scores} {busy : Option Nat}

open ExpertCache

/-- The copies for a key may be issued to the victim. -/
structure Filling (env : CacheEnv Scores) (kernels : List Kernel) (victim : Nat)
    (stream : CudaStream) (cache : ExpertCache Scores) : Prop where
  sound : CacheSound env kernels (some victim) cache
  unmapped : ∀ key, cache.map key ≠ some victim
  settled : SlotSettled cache.device victim stream
  readers : ∀ kernel ∈ kernels, kernel.slot = victim → cache.device.Settled stream kernel.ticket

/-- Issuing something that is no copy changes nothing the cache relies on. -/
theorem CacheSound.idle (sound : CacheSound env kernels busy cache) (stream : CudaStream)
    (event : Option Nat) :
    CacheSound env kernels busy
      { cache with device := cache.device.issue { stream, work := none, after := event } } :=
  sound.issue fun _ _ _ work => by cases work

/-- Fields the invariant does not read. -/
theorem CacheSound.of_same {after : ExpertCache Scores} (sound : CacheSound env kernels busy cache)
    (map_eq : after.map = cache.map) (key_eq : after.key = cache.key)
    (pend_eq : after.pend = cache.pend) (pev_eq : after.pev = cache.pev)
    (device_eq : after.device = cache.device) : CacheSound env kernels busy after := by
  obtain ⟨ordered, copies, sound, owner, mapped, content, pending, placed⟩ := sound
  refine ⟨?_, ?_, ?_, ?_, ?_, ?_, ?_, ?_⟩
  · rwa [device_eq]
  · rwa [device_eq]
  · rwa [device_eq]
  · rwa [map_eq, key_eq]
  · rwa [map_eq, key_eq]
  · rwa [map_eq, device_eq]
  · rwa [pend_eq, pev_eq, device_eq]
  · rwa [pend_eq, device_eq]

theorem CacheSound.invalidate (sound : CacheSound env kernels busy cache) (slot : Nat)
    (behind : Option CudaStream) :
    CacheSound env kernels busy (cache.perform env (.invalidate slot behind)) := by
  simp only [perform, hf2Invalidate]
  split
  next =>
    cases behind with
    | none => exact sound.of_same rfl rfl rfl rfl rfl
    | some stream =>
        exact ((sound.idle .compute none).idle stream (some cache.device.ticket)).of_same rfl rfl
          rfl rfl rfl
  next => exact sound

/-- An evicted slot is mapped by no key. -/
theorem CacheSound.unmap (sound : CacheSound env kernels none cache) (victim : Nat) :
    CacheSound env kernels (some victim) (cache.perform env (.unmap victim)) ∧
      ∀ key, (cache.perform env (.unmap victim)).map key ≠ some victim := by
  have inverse : cache.DirectoryConsistent := fun key slot =>
    ⟨sound.owner key slot, fun owned => sound.mapped key slot owned nofun⟩
  obtain ⟨map_eq, key_eq⟩ := @perform_unmap _ env cache victim
  have others : ∀ key slot, slot ≠ victim →
      ((cache.perform env (.unmap victim)).map key = some slot ↔ cache.key slot = some key) := by
    intro key slot away
    rw [map_eq]
    exact unmapOwner_of_ne inverse away key
  have gone : ∀ key, (cache.perform env (.unmap victim)).map key ≠ some victim := by
    intro key
    rw [map_eq]
    exact unmapOwner_self inverse key
  have rest : (cache.perform env (.unmap victim)).device = cache.device ∧
      (cache.perform env (.unmap victim)).pend = cache.pend ∧
        (cache.perform env (.unmap victim)).pev = cache.pev := by
    simp only [perform]
    split
    next => exact ⟨rfl, rfl, rfl⟩
    next => exact ⟨rfl, rfl, rfl⟩
  obtain ⟨device_eq, pend_eq, pev_eq⟩ := rest
  refine ⟨⟨?_, ?_, ?_, ?_, ?_, ?_, ?_, ?_⟩, gone⟩
  · rw [device_eq]
    exact sound.ordered
  · rw [device_eq]
    exact sound.copies
  · rw [device_eq]
    exact sound.kernels
  · intro key slot known
    rw [key_eq]
    have away : slot ≠ victim := fun same => gone key (same ▸ known)
    exact (others key slot away).mp known
  · intro key slot owned away
    rw [key_eq] at owned
    exact (others key slot fun same => away (congrArg some same.symm)).mpr owned
  · intro key slot known
    have away : slot ≠ victim := fun same => gone key (same ▸ known)
    rw [device_eq]
    exact sound.content key slot ((inverse key slot).mpr ((others key slot away).mp known))
  · intro slot _ raised
    rw [pend_eq] at raised
    rw [pev_eq, device_eq]
    exact sound.pending slot nofun raised
  · intro slot _ lowered
    rw [pend_eq] at lowered
    rw [device_eq]
    exact sound.placed slot nofun lowered

theorem Filling.copy (filling : Filling env kernels victim stream cache) (array : SlotArray)
    (key : Nat) :
    Filling env kernels victim stream (cache.perform env (.copy stream victim array key)) := by
  obtain ⟨sound, unmapped, settled, readers⟩ := filling
  refine ⟨sound.issue fun slot part owner work => ?_, unmapped,
    settled.issue fun _ _ _ => rfl, fun kernel member same => ?_⟩
  · cases work
    exact ⟨rfl, unmapped, settled, readers⟩
  · exact (readers kernel member same).issue _

theorem mem_stageCopies {act : HostAct} (member : act ∈ stageCopies env stream victim key .ok .ok) :
    ∃ array, act = .copy stream victim array key := by
  simp only [stageCopies, tensorCopies, List.mem_append, if_true, List.mem_cons] at member
  rcases member with (rfl | scales) | rfl | scales
  · exact ⟨_, rfl⟩
  · split at scales
    next => exact ⟨_, List.mem_singleton.mp scales⟩
    next => exact absurd scales List.not_mem_nil
  · exact ⟨_, rfl⟩
  · split at scales
    next => exact ⟨_, List.mem_singleton.mp scales⟩
    next => exact absurd scales List.not_mem_nil

/-- Both tensors of an expert are staged. -/
theorem Filling.stage (filling : Filling env kernels victim stream cache) (key : Nat) :
    let after := (stageCopies env stream victim key .ok .ok).foldl (perform env) cache
    Filling env kernels victim stream after ∧ after.map = cache.map ∧ after.pend = cache.pend ∧
      after.pev = cache.pev := by
  have copies := fun act => @mem_stageCopies _ env victim key stream act
  generalize stageCopies env stream victim key .ok .ok = acts at copies
  induction acts generalizing cache with
  | nil => exact ⟨filling, rfl, rfl, rfl⟩
  | cons act rest inductionHypothesis =>
      obtain ⟨array, rfl⟩ := copies act List.mem_cons_self
      exact inductionHypothesis (filling.copy array key) fun other member =>
        copies other (List.mem_cons_of_mem _ member)

/-- The filled slot gets its owner. -/
theorem CacheSound.own (sound : CacheSound env kernels (some victim) cache)
    (unmapped : ∀ owner, cache.map owner ≠ some victim) (missed : cache.map key = none)
    (filled : ∀ array, env.fills array = true → cache.Filled victim key stream array) :
    CacheSound env kernels (some victim) (cache.perform env (.own victim key)) ∧
      (cache.perform env (.own victim key)).map key = some victim ∧
        (cache.perform env (.own victim key)).key victim = some key := by
  refine ⟨⟨sound.ordered, sound.copies, sound.kernels, ?_, ?_, ?_, sound.pending, sound.placed⟩,
    Function.update_self _ _ _, Function.update_self _ _ _⟩
  · intro owner slot known
    simp only [perform] at known ⊢
    by_cases same : owner = key
    · subst same
      rw [Function.update_self, Option.some.injEq] at known
      subst known
      exact Function.update_self _ _ _
    · rw [Function.update_of_ne same] at known
      have away : slot ≠ victim := fun there => unmapped owner (there ▸ known)
      rw [Function.update_of_ne away]
      exact sound.owner owner slot known
  · intro owner slot owned away
    simp only [perform] at owned ⊢
    rw [Function.update_of_ne fun same => away (congrArg some same.symm)] at owned
    have known := sound.mapped owner slot owned away
    rw [Function.update_of_ne fun same => ?_]
    · exact known
    · rw [same, missed] at known
      cases known
  · intro owner slot known array fills
    simp only [perform] at known ⊢
    by_cases same : owner = key
    · subst same
      rw [Function.update_self, Option.some.injEq] at known
      subst known
      obtain ⟨index, latest⟩ := filled array fills
      exact ⟨index, _, latest, rfl⟩
    · rw [Function.update_of_ne same] at known
      exact sound.content owner slot known array fills

/-- A filled slot that is placed again is one like the others. -/
theorem CacheSound.close (sound : CacheSound env kernels (some victim) cache)
    (mapped : ∀ owner, cache.key victim = some owner → cache.map owner = some victim)
    (pending : cache.pend victim = true →
      ∃ event, cache.pev victim = some (some event) ∧ SlotCovered cache.device victim event)
    (placed : cache.pend victim = false → SlotSettled cache.device victim .compute ∨
      SlotSettled cache.device victim .overlap) : CacheSound env kernels none cache := by
  refine ⟨sound.ordered, sound.copies, sound.kernels, sound.owner, ?_, sound.content, ?_, ?_⟩
  · intro owner slot owned _
    by_cases same : slot = victim
    · subst same
      exact mapped owner owned
    · exact sound.mapped owner slot owned fun there => same (Option.some.inj there).symm
  · intro slot _ raised
    by_cases same : slot = victim
    · subst same
      exact pending raised
    · exact sound.pending slot (fun there => same (Option.some.inj there).symm) raised
  · intro slot _ lowered
    by_cases same : slot = victim
    · subst same
      exact placed lowered
    · exact sound.placed slot (fun there => same (Option.some.inj there).symm) lowered

/-- What happens to the flag and the event of the slot in hand. -/
theorem CacheSound.of_busy {after : ExpertCache Scores}
    (sound : CacheSound env kernels (some victim) cache) (map_eq : after.map = cache.map)
    (key_eq : after.key = cache.key) (device_eq : after.device = cache.device)
    (pend_eq : ∀ slot, slot ≠ victim → after.pend slot = cache.pend slot)
    (pev_eq : ∀ slot, slot ≠ victim → after.pev slot = cache.pev slot) :
    CacheSound env kernels (some victim) after := by
  obtain ⟨ordered, copies, sound, owner, mapped, content, pending, placed⟩ := sound
  refine ⟨?_, ?_, ?_, ?_, ?_, ?_, fun slot away raised => ?_, fun slot away lowered => ?_⟩
  · rwa [device_eq]
  · rwa [device_eq]
  · rwa [device_eq]
  · rwa [map_eq, key_eq]
  · rwa [map_eq, key_eq]
  · rwa [map_eq, device_eq]
  · have other : slot ≠ victim := fun same => away (congrArg some same.symm)
    rw [pend_eq slot other] at raised
    rw [pev_eq slot other, device_eq]
    exact pending slot away raised
  · have other : slot ≠ victim := fun same => away (congrArg some same.symm)
    rw [pend_eq slot other] at lowered
    rw [device_eq]
    exact placed slot away lowered

/-- The victim has a new owner, and the other slots theirs. -/
structure Replaced (env : CacheEnv Scores) (kernels : List Kernel) (victim key : Nat)
    (stream : CudaStream) (before after : ExpertCache Scores) : Prop where
  sound : CacheSound env kernels none after
  owned : after.map key = some victim
  others : ∀ other slot, slot ≠ victim →
    (after.map other = some slot ↔ before.map other = some slot)
  frame : Frame (some victim) stream before after

theorem CacheSound.consistent (sound : CacheSound env kernels none cache) :
    cache.DirectoryConsistent :=
  fun key slot => ⟨sound.owner key slot, fun owned => sound.mapped key slot owned nofun⟩

/-- The mappings after the victim was unmapped and handed over. -/
theorem others_of_replace {before after : ExpertCache Scores} (sound : CacheSound env kernels none before)
    (missed : before.map key = none)
    (map_eq : after.map = Function.update (unmapOwner before.map before.key victim) key
      (some victim)) (other slot : Nat) (away : slot ≠ victim) :
    after.map other = some slot ↔ before.map other = some slot := by
  rw [map_eq]
  by_cases same : other = key
  · subst same
    rw [Function.update_self, missed]
    simp only [Option.some.injEq, reduceCtorEq, iff_false]
    exact fun there => away there.symm
  · rw [Function.update_of_ne same, unmapOwner_of_ne sound.consistent away]
    exact (sound.consistent other slot).symm

theorem unmapOwner_of_none {map owner : Nat → Option Nat} {slot key : Nat}
    (missed : map key = none) : unmapOwner map owner slot key = none := by
  unfold unmapOwner
  cases owner slot with
  | none => exact missed
  | some old =>
      by_cases same : key = old
      · subst same
        exact Function.update_self _ _ _
      · exact (Function.update_of_ne same _ _).trans missed

/-- The slot of a victim after it was invalidated and unmapped. -/
structure Evicted (env : CacheEnv Scores) (kernels : List Kernel) (victim : Nat)
    (stream : CudaStream) (before after : ExpertCache Scores) : Prop where
  sound : CacheSound env kernels (some victim) after
  unmapped : ∀ key, after.map key ≠ some victim
  keeps : ∀ key, before.map key = none → after.map key = none
  frame : Frame none stream before after
  pending : before.pend victim = true →
    ∃ event, after.pev victim = some (some event) ∧ SlotCovered after.device victim event

theorem evicted (sound : CacheSound env kernels none cache) {behind : Option CudaStream}
    (ordered : behind = none ∨ behind = some stream) (victim : Nat) :
    Evicted env kernels victim stream cache
      ((cache.perform env (.invalidate victim behind)).perform env (.unmap victim)) := by
  obtain ⟨unmapped, gone⟩ := (sound.invalidate victim behind).unmap victim
  have frame : Frame none stream cache
      ((cache.perform env (.invalidate victim behind)).perform env (.unmap victim)) := by
    apply (@invalidate_frame _ env cache stream behind victim ordered).trans
    simp only [perform]
    split
    next => exact ⟨rfl, rfl, rfl, rfl, fun _ _ => rfl, fun _ _ => rfl, Frame.refl.issues⟩
    next => exact Frame.refl
  refine ⟨unmapped, gone, fun key missed => ?_, frame, fun raised => ?_⟩
  · rw [(perform_unmap _ victim).1]
    apply unmapOwner_of_none
    rw [(perform_aside cache (.invalidate victim behind) rfl).1]
    exact missed
  · obtain ⟨event, recorded, covered⟩ := sound.pending victim (by simp) raised
    exact ⟨event, (frame.pev victim (by simp)).trans recorded, frame.slotCovered (by simp) covered⟩

/-- A wait for the event of the victim, where its flag is up. -/
theorem Evicted.awaited {after : ExpertCache Scores}
    (evicted : Evicted env kernels victim stream cache after) (raised : cache.pend victim = true) :
    CacheSound env kernels (some victim) (after.perform env (.await victim stream)) ∧
      SlotSettled (after.perform env (.await victim stream)).device victim stream ∧
        Frame none stream after (after.perform env (.await victim stream)) ∧
          (after.perform env (.await victim stream)).map = after.map := by
  obtain ⟨event, recorded, covered⟩ := evicted.pending raised
  simp only [perform, recorded]
  exact ⟨evicted.sound.idle stream (some event), covered.wait stream,
    Frame.of_issue (fits_wait stream (some event)), trivial⟩

/-- The statements of a miss up to the copies. -/
theorem filling_front {behind : Option CudaStream} (sound : CacheSound env kernels none cache)
    (ordered : behind = none ∨ behind = some stream)
    (settled : cache.pend victim = false → SlotSettled cache.device victim stream)
    (readers : ∀ kernel ∈ kernels, kernel.slot = victim →
      (cache.perform env (.invalidate victim behind)).device.Settled stream kernel.ticket) :
    let front := [HostAct.invalidate victim behind, .unmap victim] ++
      if cache.pend victim then [.await victim stream, .clearPend victim] else []
    Filling env kernels victim stream (front.foldl (perform env) cache) ∧
      (front.foldl (perform env) cache).pend victim = false := by
  have gone := @evicted _ env kernels stream cache sound behind ordered victim
  have device_eq : ((cache.perform env (.invalidate victim behind)).perform env
      (.unmap victim)).device = (cache.perform env (.invalidate victim behind)).device := by
    generalize cache.perform env (.invalidate victim behind) = reached
    simp only [perform]
    split
    next => rfl
    next => rfl
  rw [← device_eq] at readers
  simp only [List.foldl_append, List.foldl_cons, List.foldl_nil]
  generalize (cache.perform env (.invalidate victim behind)).perform env (.unmap victim) = reached
    at gone readers
  by_cases raised : cache.pend victim = true
  · rw [if_pos raised]
    obtain ⟨awaited, waiting, frame, map_eq⟩ := gone.awaited raised
    simp only [List.foldl_cons, List.foldl_nil]
    generalize reached.perform env (.await victim stream) = later at awaited waiting frame map_eq
    refine ⟨⟨?_, ?_, waiting, fun kernel member same =>
      frame.settled (readers kernel member same)⟩, Function.update_self _ _ _⟩
    · exact awaited.of_busy rfl rfl rfl
        (fun slot away => Function.update_of_ne away _ _) (fun _ _ => rfl)
    · intro key
      have unmapped := gone.unmapped key
      rw [← map_eq] at unmapped
      exact unmapped
  · rw [if_neg raised]
    have lowered : cache.pend victim = false := Bool.not_eq_true _ ▸ raised
    exact ⟨⟨gone.sound, gone.unmapped, gone.frame.slotSettled (by simp) (settled lowered), readers⟩,
      (gone.frame.pend victim (by simp)).trans lowered⟩

/-- Statements about the order of eviction, the table of readers and the ring. -/
def HostAct.still : HostAct → Bool
  | .issued _ _ => true
  | .stamp _ => true
  | .touch _ => true
  | .ringPut _ _ => true
  | _ => false

theorem perform_still {act : HostAct} (still : act.still = true) (cache : ExpertCache Scores) :
    (cache.perform env act).map = cache.map ∧ (cache.perform env act).key = cache.key ∧
      (cache.perform env act).pend = cache.pend ∧ (cache.perform env act).pev = cache.pev ∧
        (cache.perform env act).device = cache.device := by
  cases act with
  | issued slot key =>
      simp only [perform, hf2Issued, hf2UnpubAdd]
      repeat' split
      all_goals exact ⟨rfl, rfl, rfl, rfl, rfl⟩
  | stamp slot => exact ⟨rfl, rfl, rfl, rfl, rfl⟩
  | touch key => exact ⟨rfl, rfl, rfl, rfl, rfl⟩
  | ringPut index slot => exact ⟨rfl, rfl, rfl, rfl, rfl⟩
  | _ => cases still

theorem performAll_still {acts : List HostAct} (still : ∀ act ∈ acts, act.still = true)
    (cache : ExpertCache Scores) :
    (acts.foldl (perform env) cache).map = cache.map ∧
      (acts.foldl (perform env) cache).key = cache.key ∧
        (acts.foldl (perform env) cache).pend = cache.pend ∧
          (acts.foldl (perform env) cache).pev = cache.pev ∧
            (acts.foldl (perform env) cache).device = cache.device := by
  induction acts generalizing cache with
  | nil => exact ⟨rfl, rfl, rfl, rfl, rfl⟩
  | cons act rest inductionHypothesis =>
      obtain ⟨map_eq, key_eq, pend_eq, pev_eq, device_eq⟩ :=
        @perform_still _ env act (still act List.mem_cons_self) cache
      have later := inductionHypothesis (fun other member => still other
        (List.mem_cons_of_mem _ member)) (cache.perform env act)
      rw [map_eq, key_eq, pend_eq, pev_eq, device_eq] at later
      exact later

/-- An event of the slot is recorded behind the copies into it. -/
theorem CacheSound.recordFilled (sound : CacheSound env kernels (some victim) cache)
    (settled : SlotSettled cache.device victim stream) :
    let after := cache.perform env (.recordFilled victim stream)
    CacheSound env kernels (some victim) after ∧ SlotSettled after.device victim stream ∧
      after.map = cache.map ∧ after.key = cache.key ∧ after.pend = cache.pend ∧
        (cache.pev victim ≠ none →
          ∃ event, after.pev victim = some (some event) ∧ SlotCovered after.device victim event) := by
  cases known : cache.pev victim with
  | none =>
      simp only [perform, known]
      exact ⟨sound, settled, trivial, trivial, trivial, fun impossible => absurd rfl impossible⟩
  | some event =>
      simp only [perform, known]
      refine ⟨?_, ?_, trivial, trivial, trivial, fun _ =>
        ⟨cache.device.ticket, Function.update_self _ _ _, settled.record⟩⟩
      · exact (sound.idle stream none).of_busy rfl rfl rfl (fun _ _ => rfl)
          (fun slot away => Function.update_of_ne away _ _)
      · exact settled.issue fun _ _ work => by cases work

/-- The copies, and the slot is handed over. -/
theorem Filling.handover (filling : Filling env kernels victim stream cache)
    (missed : cache.map key = none) :
    let after := ((stageCopies env stream victim key .ok .ok).foldl (perform env) cache).perform env
      (.own victim key)
    CacheSound env kernels (some victim) after ∧ SlotSettled after.device victim stream ∧
      after.map key = some victim ∧ after.key victim = some key ∧ after.pend = cache.pend ∧
        after.pev = cache.pev := by
  have filled := @stageCopies_filled _ env cache stream victim key
  obtain ⟨staged, map_eq, pend_eq, pev_eq⟩ := filling.stage key
  generalize (stageCopies env stream victim key .ok .ok).foldl (perform env) cache = reached
    at filled staged map_eq pend_eq pev_eq
  rw [← map_eq] at missed
  obtain ⟨sound, mapped, owned⟩ := staged.sound.own staged.unmapped missed filled
  exact ⟨sound, staged.settled, mapped, owned, pend_eq, pev_eq⟩

/-- The statements behind a handover whose slot is settled for a stream of kernels or copies. -/
theorem CacheSound.settle {acts : List HostAct} (still : ∀ act ∈ acts, act.still = true)
    (sound : CacheSound env kernels (some victim) cache)
    (settled : SlotSettled cache.device victim stream)
    (direct : stream = .compute ∨ stream = .overlap) (mapped : cache.map key = some victim)
    (owned : cache.key victim = some key) (lowered : cache.pend victim = false) :
    let after := acts.foldl (perform env) cache
    CacheSound env kernels none after ∧ SlotSettled after.device victim stream ∧
      after.pend victim = false := by
  obtain ⟨map_eq, key_eq, pend_eq, pev_eq, device_eq⟩ := @performAll_still _ env acts still cache
  have closed : CacheSound env kernels none cache := by
    refine sound.close (fun owner known => ?_) (fun raised => ?_) fun _ => ?_
    · rw [owned, Option.some.injEq] at known
      exact known ▸ mapped
    · rw [lowered] at raised
      cases raised
    · rcases direct with rfl | rfl
      · exact Or.inl settled
      · exact Or.inr settled
  refine ⟨closed.of_same map_eq key_eq pend_eq pev_eq device_eq, ?_, ?_⟩
  · rw [device_eq]
    exact settled
  · rw [pend_eq]
    exact lowered

theorem stageCopies_within (stream : CudaStream) (victim key : Nat) :
    ∀ act ∈ stageCopies env stream victim key .ok .ok, act.Within victim stream := by
  intro act member
  obtain ⟨array, rfl⟩ := mem_stageCopies member
  exact ⟨rfl, rfl⟩

/-- The acts of a miss whose copies are issued: eviction, copies, bookkeeping. -/
theorem moeResident_miss_acts {query : Nat → Bool} {L e NE : Nat} (on : cache.slots ≠ 0)
    (missed : cache.map (L * NE + e) = none) (known : cache.moeEvVictim env = victim) :
    cache.moeResident env query L e NE stream .ok .ok =
      ([HostAct.invalidate victim (if stream = .compute then none else some stream),
        .unmap victim] ++ if cache.pend victim then [HostAct.await victim stream, .clearPend victim]
          else []) ++ (stageCopies env stream victim (L * NE + e) .ok .ok ++
            (HostAct.own victim (L * NE + e) :: ((if cache.dmapOn then
              [HostAct.recordFilled victim stream, .issued victim (L * NE + e)] else []) ++
                [HostAct.stamp victim, .touch (L * NE + e)]))) := by
  simp only [moeResident, if_neg on, missed, known, and_self, if_true, List.append_assoc,
    List.cons_append, List.nil_append]

/-- A miss touches no slot but its victim. -/
theorem moeResident_miss_within {query : Nat → Bool} {L e NE : Nat} (on : cache.slots ≠ 0)
    (missed : cache.map (L * NE + e) = none) (known : cache.moeEvVictim env = victim)
    (ordered : (if stream = .compute then none else some stream) = none ∨
      (if stream = .compute then none else some stream) = some stream) :
    ∀ act ∈ cache.moeResident env query L e NE stream .ok .ok, act.Within victim stream := by
  intro act member
  rw [moeResident_miss_acts on missed known] at member
  simp only [List.mem_append, List.mem_cons, List.not_mem_nil, or_false] at member
  rcases member with ((rfl | rfl) | waits) | copies | rfl | records | rfl | rfl
  · exact ⟨rfl, ordered⟩
  · exact rfl
  · split at waits
    next =>
      simp only [List.mem_cons, List.not_mem_nil, or_false] at waits
      rcases waits with rfl | rfl
      · exact ⟨rfl, rfl⟩
      · exact rfl
    next => exact absurd waits List.not_mem_nil
  · exact stageCopies_within stream victim _ act copies
  · exact rfl
  · split at records
    next =>
      simp only [List.mem_cons, List.not_mem_nil, or_false] at records
      rcases records with rfl | rfl
      · exact ⟨rfl, rfl⟩
      · exact rfl
    next => exact absurd records List.not_mem_nil
  · exact rfl
  · trivial

/-- A miss on the decode stream or the overlap stream. -/
theorem moeResident_miss_replaced {query : Nat → Bool} {L e NE : Nat}
    (sound : CacheSound env kernels none cache) (on : cache.slots ≠ 0)
    (missed : cache.map (L * NE + e) = none) (known : cache.moeEvVictim env = victim)
    (direct : stream = .compute ∨ stream = .overlap)
    (settled : cache.pend victim = false → SlotSettled cache.device victim stream)
    (readers : ∀ kernel ∈ kernels, kernel.slot = victim →
      (cache.perform env (.invalidate victim
        (if stream = .compute then none else some stream))).device.Settled stream kernel.ticket) :
    let after := (cache.moeResident env query L e NE stream .ok .ok).foldl (perform env) cache
    Replaced env kernels victim (L * NE + e) stream cache after ∧
      SlotSettled after.device victim stream ∧ after.pend victim = false := by
  have handover := @moeResident_miss _ env query cache L e NE stream .ok .ok on missed
  rw [known] at handover
  simp only [and_self, if_true] at handover
  have ordered : (if stream = .compute then none else some stream) = none ∨
      (if stream = .compute then none else some stream) = some stream := by
    split
    next => exact Or.inl rfl
    next => exact Or.inr rfl
  obtain ⟨filling, lowered⟩ :=
    @filling_front _ env kernels victim stream cache _ sound ordered settled readers
  have quiet : ∀ act ∈ (if cache.pend victim = true then
      [HostAct.await victim stream, .clearPend victim] else []), act.aside = true :=
    aside_ite (by simp [HostAct.aside])
  have front_map := (@performAll_unmap _ env _ quiet cache victim
    (if stream = .compute then none else some stream)).1
  have still_missed := @unmapOwner_of_none _ cache.key victim _ missed
  rw [← front_map] at still_missed
  obtain ⟨reached, done, mapped, owned, pend_eq, _⟩ := filling.handover still_missed
  have acts := @moeResident_miss_acts _ env victim stream cache query L e NE on missed known
  have within := @moeResident_miss_within _ env victim stream cache query L e NE on missed known
    ordered
  have frame := @performAll_frame _ env victim stream _ within cache
  have final : CacheSound env kernels none
        ((cache.moeResident env query L e NE stream .ok .ok).foldl (perform env) cache) ∧
      SlotSettled ((cache.moeResident env query L e NE stream .ok .ok).foldl
        (perform env) cache).device victim stream ∧
        ((cache.moeResident env query L e NE stream .ok .ok).foldl
          (perform env) cache).pend victim = false := by
    rw [acts, List.foldl_append, List.foldl_append, List.foldl_cons]
    rw [← pend_eq] at lowered
    generalize ((stageCopies env stream victim (L * NE + e) .ok .ok).foldl (perform env)
      _).perform env (.own victim (L * NE + e)) = later at reached done mapped owned lowered ⊢
    have last : ∀ act ∈ [HostAct.stamp victim, .touch (L * NE + e)], act.still = true := by
      simp [HostAct.still]
    split
    next =>
      obtain ⟨recorded, done, map_eq, key_eq, pend_eq, _⟩ := reached.recordFilled done
      rw [← map_eq] at mapped
      rw [← key_eq] at owned
      rw [← pend_eq] at lowered
      have rest : ∀ act ∈ [HostAct.issued victim (L * NE + e), .stamp victim,
          .touch (L * NE + e)], act.still = true := by
        simp [HostAct.still]
      have settled := recorded.settle rest done direct mapped owned lowered
      exact settled
    next => exact reached.settle last done direct mapped owned lowered
  refine ⟨⟨final.1, ?_, ?_, frame⟩, final.2⟩
  · rw [handover.1]
    exact Function.update_self _ _ _
  · exact others_of_replace sound missed handover.1

end Filling

/-! ## Calls that evict nothing -/

/-- Flags were lowered, each of a slot whose copies have landed. -/
structure Lowered (before after : ExpertCache Scores) : Prop where
  slots_eq : after.slots = before.slots
  ne_eq : after.ne = before.ne
  ready_eq : after.admReady = before.admReady
  on_eq : after.dmapOn = before.dmapOn
  map_eq : after.map = before.map
  key_eq : after.key = before.key
  pev_eq : after.pev = before.pev
  device_eq : after.device = before.device
  pend : ∀ slot, after.pend slot = before.pend slot ∨
    after.pend slot = false ∧ SlotLanded before.device slot

/-- Records and waits were issued, and the directory stayed. -/
structure Idled (stream : CudaStream) (before after : ExpertCache Scores) : Prop where
  frame : Frame none stream before after
  map_eq : after.map = before.map
  key_eq : after.key = before.key

section Calls

variable {env : CacheEnv Scores} {kernels : List Kernel} {busy : Option Nat} {stream : CudaStream}
variable {cache before middle after : ExpertCache Scores} {query : Nat → Bool} {slot : Nat}

open ExpertCache

theorem Lowered.refl : Lowered cache cache :=
  ⟨rfl, rfl, rfl, rfl, rfl, rfl, rfl, rfl, fun _ => Or.inl rfl⟩

theorem Lowered.trans (first : Lowered before middle) (second : Lowered middle after) :
    Lowered before after := by
  refine ⟨second.slots_eq.trans first.slots_eq, second.ne_eq.trans first.ne_eq,
    second.ready_eq.trans first.ready_eq, second.on_eq.trans first.on_eq,
    second.map_eq.trans first.map_eq, second.key_eq.trans first.key_eq,
    second.pev_eq.trans first.pev_eq, second.device_eq.trans first.device_eq, fun slot => ?_⟩
  rcases second.pend slot with same | ⟨low, landed⟩
  · rw [same]
    exact first.pend slot
  · rw [first.device_eq] at landed
    exact Or.inr ⟨low, landed⟩

theorem CacheSound.lowered (sound : CacheSound env kernels none before)
    (lowered : Lowered before after) : CacheSound env kernels none after := by
  refine ⟨?_, ?_, ?_, ?_, ?_, ?_, fun slot _ raised => ?_, fun slot _ low => ?_⟩
  · rw [lowered.device_eq]
    exact sound.ordered
  · rw [lowered.device_eq]
    exact sound.copies
  · rw [lowered.device_eq]
    exact sound.kernels
  · rw [lowered.map_eq, lowered.key_eq]
    exact sound.owner
  · rw [lowered.map_eq, lowered.key_eq]
    exact sound.mapped
  · rw [lowered.map_eq, lowered.device_eq]
    exact sound.content
  · rw [lowered.pev_eq, lowered.device_eq]
    rcases lowered.pend slot with same | ⟨low, _⟩
    · exact sound.pending slot nofun (same.symm.trans raised)
    · rw [low] at raised
      cases raised
  · rw [lowered.device_eq]
    rcases lowered.pend slot with same | ⟨_, landed⟩
    · exact sound.placed slot nofun (same.symm.trans low)
    · exact Or.inl (landed.settled .compute)

theorem CacheSound.issueAll (sound : CacheSound env kernels busy cache)
    {operations : List (Issued CudaStream ExpertWork)}
    (fits : ∀ operation ∈ operations, Fits none stream operation) :
    CacheSound env kernels busy { cache with device := cache.device.issueAll operations } := by
  induction operations generalizing cache with
  | nil => exact sound.of_same rfl rfl rfl rfl (by simp only [Device.issueAll, List.append_nil])
  | cons operation rest inductionHypothesis =>
      have once : CacheSound env kernels busy
          { cache with device := cache.device.issue operation } := by
        refine sound.issue fun slot array key work => ?_
        have away := (fits operation List.mem_cons_self).1 slot array key work
        cases away
      have all := inductionHypothesis once fun other member =>
        fits other (List.mem_cons_of_mem _ member)
      refine all.of_same rfl rfl rfl rfl ?_
      simp only [Device.issueAll, Device.issue, List.append_assoc, List.singleton_append]

theorem CacheSound.idled (sound : CacheSound env kernels none before)
    (idled : Idled stream before after) : CacheSound env kernels none after := by
  obtain ⟨operations, grown, fits⟩ := idled.frame.issues
  refine (sound.issueAll fits).of_same idled.map_eq idled.key_eq ?_ ?_ grown
  · exact funext fun slot => idled.frame.pend slot nofun
  · exact funext fun slot => idled.frame.pev slot nofun

/-- The flag of a slot whose event reports success stands over copies that have landed. -/
theorem CacheSound.landed (sound : CacheSound env kernels none cache)
    (honest : ∀ event, query event = true → event ∈ cache.device.ran)
    (raised : cache.pend slot = true) (settled : cache.settled query slot = true) :
    SlotLanded cache.device slot := by
  obtain ⟨event, recorded, covered⟩ := sound.pending slot nofun raised
  rw [ExpertCache.settled, recorded] at settled
  exact fun c copy => (covered c copy).ran sound.ordered (honest event settled)

theorem CacheSound.lower (sound : CacheSound env kernels none cache)
    (honest : ∀ event, query event = true → event ∈ cache.device.ran)
    (settled : cache.pend slot = true → cache.settled query slot = true) :
    Lowered cache { cache with pend := Function.update cache.pend slot false } := by
  refine ⟨rfl, rfl, rfl, rfl, rfl, rfl, rfl, rfl, fun other => ?_⟩
  by_cases same : other = slot
  · subst same
    simp only [Function.update_self]
    by_cases raised : cache.pend other = true
    · exact Or.inr ⟨trivial, sound.landed honest raised (settled raised)⟩
    · exact Or.inl (Bool.not_eq_true _ ▸ raised).symm
  · exact Or.inl (Function.update_of_ne same _ _)

theorem Idled.trans (first : Idled stream before middle) (second : Idled stream middle after) :
    Idled stream before after :=
  ⟨first.frame.trans second.frame, second.map_eq.trans first.map_eq,
    second.key_eq.trans first.key_eq⟩

theorem idled_of_still {acts : List HostAct} (still : ∀ act ∈ acts, act.still = true)
    (within : ∀ act ∈ acts, act.Within slot stream) (cache : ExpertCache Scores) :
    Idled stream cache (acts.foldl (perform env) cache) := by
  obtain ⟨map_eq, key_eq, pend_eq, pev_eq, device_eq⟩ := @performAll_still _ env acts still cache
  have frame := @performAll_frame _ env slot stream acts within cache
  refine ⟨⟨frame.slots_eq, frame.ne_eq, frame.ready_eq, frame.on_eq, fun other _ =>
    congrFun pev_eq other, fun other _ => congrFun pend_eq other, [], ?_,
    fun _ member => absurd member List.not_mem_nil⟩, map_eq, key_eq⟩
  simp only [Device.issueAll, List.append_nil]
  exact device_eq

/-- A hit issues at most a wait, and where the flag of the slot is up the stream has its copies. -/
theorem moeResident_hit_idled {L e NE : Nat} (sound : CacheSound env kernels none cache)
    (on : cache.slots ≠ 0) (honest : ∀ event, query event = true → event ∈ cache.device.ran)
    (hit : cache.map (L * NE + e) = some slot) (stream : CudaStream) :
    let after := (cache.moeResident env query L e NE stream .ok .ok).foldl (perform env) cache
    (∃ middle, Lowered cache middle ∧ Idled stream middle after) ∧
      (cache.pend slot = true → SlotSettled after.device slot stream) := by
  have still : ∀ act ∈ [HostAct.stamp slot, .touch (L * NE + e)], act.still = true := by
    simp [HostAct.still]
  have within : ∀ act ∈ [HostAct.stamp slot, .touch (L * NE + e)], act.Within slot stream := by
    simp [HostAct.Within]
  have ends := fun reached => @idled_of_still _ env stream slot _ still within reached
  simp only [moeResident, if_neg on, hit, List.foldl_append]
  by_cases raised : cache.pend slot = true
  · rw [if_pos raised]
    by_cases settled : cache.settled query slot = true
    · rw [if_pos settled]
      have low := sound.lower honest fun _ => settled
      have after := ends (cache.perform env (.clearPend slot))
      refine ⟨⟨_, low, after⟩, fun _ => ?_⟩
      have landed := (sound.landed honest raised settled).settled stream
      exact after.frame.slotSettled (by simp) landed
    · rw [if_neg settled]
      obtain ⟨event, recorded, covered⟩ := sound.pending slot (by simp) raised
      have waits : cache.perform env (.await slot stream) =
          { cache with device := cache.device.wait stream (some event) } := by
        simp only [perform, recorded]
      simp only [List.foldl_cons, List.foldl_nil, waits]
      have waited : Idled stream cache
          { cache with device := cache.device.wait stream (some event) } :=
        ⟨Frame.of_issue (fits_wait stream (some event)), rfl, rfl⟩
      have after := ends { cache with device := cache.device.wait stream (some event) }
      exact ⟨⟨cache, Lowered.refl, waited.trans after⟩, fun _ =>
        after.frame.slotSettled (by simp) (covered.wait stream)⟩
  · rw [if_neg raised]
    exact ⟨⟨cache, Lowered.refl, ends cache⟩, fun up => absurd up raised⟩

theorem moeReadyNow_lowered {L e NE : Nat} (sound : CacheSound env kernels none cache)
    (honest : ∀ event, query event = true → event ∈ cache.device.ran) :
    Lowered cache (cache.moeReadyNow env query L e NE).2 := by
  have missed : ∀ key, Lowered cache (moeReadyNow.missed env cache key) := by
    intro key
    unfold moeReadyNow.missed
    split
    next => exact ⟨rfl, rfl, rfl, rfl, rfl, rfl, rfl, rfl, fun _ => Or.inl rfl⟩
    next => exact Lowered.refl
  simp only [moeReadyNow]
  split
  next slot _ =>
    split
    next => exact Lowered.refl
    next =>
      split
      next settled => exact sound.lower honest fun _ => settled
      next => exact missed _
  next => exact missed _

theorem hf2Reap_lowered (query : Nat → Bool) (cache : ExpertCache Scores) :
    Lowered cache (cache.hf2Reap query) := by
  obtain ⟨_, _, changed⟩ := hf2Reap_changes query cache
  rw [changed]
  exact ⟨rfl, rfl, rfl, rfl, rfl, rfl, rfl, rfl, fun _ => Or.inl rfl⟩

theorem scanRing_lowered (indices : List Nat) (inflight : Nat) (free : Option Nat)
    (sound : CacheSound env kernels none cache)
    (honest : ∀ event, query event = true → event ∈ cache.device.ran) :
    Lowered cache (indices.foldl (scanRing query) (cache, inflight, free)).1 := by
  induction indices generalizing cache inflight free with
  | nil => exact Lowered.refl
  | cons index rest inductionHypothesis =>
      rw [List.foldl_cons]
      simp only [scanRing]
      cases cache.ring.getD index none with
      | none => exact inductionHypothesis _ _ sound honest
      | some slot =>
          by_cases flying : (cache.pend slot && !cache.settled query slot) = true
          · simp only [flying, if_true]
            exact inductionHypothesis _ _ sound honest
          · simp only [flying, if_false, Bool.false_eq_true]
            have low := @CacheSound.lower _ env kernels cache query slot sound honest
              fun raised => by simpa [raised] using flying
            have freed : Lowered cache
                { cache with
                  pend := Function.update cache.pend slot false
                  ring := cache.ring.set index none } :=
              low.trans ⟨rfl, rfl, rfl, rfl, rfl, rfl, rfl, rfl, fun _ => Or.inl rfl⟩
            exact freed.trans (inductionHypothesis _ _ (sound.lowered freed) honest)

/-- A reap changes nothing that the choice of a victim reads, and neither does a scan. -/
theorem hf2Reap_victim (query : Nat → Bool) (cache : ExpertCache Scores) :
    (cache.hf2Reap query).moeEvVictim env = cache.moeEvVictim env := by
  obtain ⟨_, _, changed⟩ := hf2Reap_changes query cache
  rw [changed]
  rfl

theorem scanRing_victim (indices : List Nat) (cache : ExpertCache Scores) (inflight : Nat)
    (free : Option Nat) :
    (indices.foldl (scanRing query) (cache, inflight, free)).1.moeEvVictim env =
      cache.moeEvVictim env := by
  obtain ⟨_, _, changed⟩ := scanRing_changes query indices (cache, inflight, free)
  rw [changed]
  rfl

/-- The admission ring has a free place, and its copies in flight are below the cap. -/
def ExpertCache.ringOpen (env : CacheEnv Scores) (query : Nat → Bool) (cache : ExpertCache Scores) :
    Bool :=
  let (_, inflight, free) := (List.range env.admitCap).foldl (scanRing query) (cache, 0, none)
  free.isSome && decide (inflight < env.admitCap)

/-- Everything the decode stream was settled for at the last CPU layer is behind its event. -/
structure Guarding (kernels : List Kernel) (victim : Nat) (cache : ExpertCache Scores) (event : Nat) :
    Prop where
  recorded : cache.admReady = some event
  copies : cache.pend victim = false → SlotCovered cache.device victim event
  readers : ∀ kernel ∈ kernels, kernel.slot = victim → cache.device.Covered event kernel.ticket

/-- The statements of an admission from its victim on. -/
def admission (env : CacheEnv Scores) (cache : ExpertCache Scores) (victim key index : Nat) :
    List HostAct :=
  [.invalidate victim (some .admission), .unmap victim, .awaitReady] ++
    (if cache.pend victim then [.await victim .admission] else []) ++
    stageCopies env .admission victim key .ok .ok ++
    [.recordFilled victim .admission, .setPend victim, .own victim key, .stamp victim,
      .issued victim key, .ringPut index victim]

theorem Frame.covered {victim : Option Nat} {event i : Nat}
    (frame : Frame victim stream before after) (covered : before.device.Covered event i) :
    after.device.Covered event i := by
  obtain ⟨operations, grown, _⟩ := frame.issues
  rw [grown]
  exact covered.issueAll operations

/-- The statements of an admission up to the copies. -/
theorem admission_front {victim event : Nat} (sound : CacheSound env kernels none cache)
    (marked : Guarding kernels victim cache event) :
    let front := [HostAct.invalidate victim (some .admission), .unmap victim, .awaitReady] ++
      if cache.pend victim then [HostAct.await victim .admission] else []
    Filling env kernels victim .admission (front.foldl (perform env) cache) ∧
      (front.foldl (perform env) cache).pev victim = cache.pev victim ∧
        ∀ key, cache.map key = none → (front.foldl (perform env) cache).map key = none := by
  have gone := @evicted _ env kernels .admission cache sound (some .admission) (Or.inr rfl) victim
  simp only [List.foldl_append, List.foldl_cons, List.foldl_nil]
  generalize (cache.perform env (.invalidate victim (some .admission))).perform env
    (.unmap victim) = reached at gone
  obtain ⟨recorded, copies, readers⟩ := marked
  have ready : reached.perform env .awaitReady =
      { reached with device := reached.device.wait .admission (some event) } := by
    simp only [perform, gone.frame.ready_eq, recorded]
  rw [ready]
  have waited : Frame none .admission reached
      { reached with device := reached.device.wait .admission (some event) } :=
    Frame.of_issue (fits_wait .admission (some event))
  have behind : Evicted env kernels victim .admission cache
      { reached with device := reached.device.wait .admission (some event) } := by
    refine ⟨gone.sound.idle .admission (some event), gone.unmapped, gone.keeps,
      gone.frame.trans waited, fun raised => ?_⟩
    obtain ⟨flag, flagged, covered⟩ := gone.pending raised
    exact ⟨flag, flagged, waited.slotCovered (by simp) covered⟩
  have read : ∀ kernel ∈ kernels, kernel.slot = victim →
      (reached.device.wait .admission (some event)).Settled .admission kernel.ticket :=
    fun kernel member same =>
      (gone.frame.covered (readers kernel member same)).settled_wait .admission
  by_cases raised : cache.pend victim = true
  · rw [if_pos raised]
    obtain ⟨awaited, settled, frame, map_eq⟩ := behind.awaited raised
    simp only [List.foldl_cons, List.foldl_nil]
    generalize ExpertCache.perform env _ (.await victim .admission) = later
      at awaited settled frame map_eq
    refine ⟨⟨awaited, fun key => ?_, settled, fun kernel member same =>
      frame.settled (read kernel member same)⟩, ?_, fun key missed => ?_⟩
    · rw [map_eq]
      exact behind.unmapped key
    · exact (frame.pev victim (by simp)).trans (behind.frame.pev victim (by simp))
    · rw [map_eq]
      exact behind.keeps key missed
  · rw [if_neg raised]
    have covered := gone.frame.slotCovered (by simp) (copies (Bool.not_eq_true _ ▸ raised))
    exact ⟨⟨behind.sound, behind.unmapped, covered.wait .admission, read⟩,
      behind.frame.pev victim (by simp), behind.keeps⟩

theorem filled_recordFilled {victim key : Nat} {array : SlotArray}
    (filled : cache.Filled victim key stream array) :
    (cache.perform env (.recordFilled victim stream)).Filled victim key stream array := by
  obtain ⟨index, latest⟩ := filled
  simp only [perform]
  split
  next => exact ⟨index, (extends_issue rfl).latest latest⟩
  next => exact ⟨index, latest⟩

/-- The statements of an admission from the copies on. -/
theorem admission_end {victim key index : Nat}
    (filling : Filling env kernels victim .admission cache) (missed : cache.map key = none)
    (hasEvent : cache.pev victim ≠ none) :
    let after := (stageCopies env .admission victim key .ok .ok ++
      [HostAct.recordFilled victim .admission, .setPend victim, .own victim key, .stamp victim,
        .issued victim key, .ringPut index victim]).foldl (perform env) cache
    CacheSound env kernels none after ∧ after.pend victim = true ∧
      after.map key = some victim := by
  have filled := @stageCopies_filled _ env cache .admission victim key
  obtain ⟨staged, map_eq, _, pev_eq⟩ := filling.stage key
  simp only [List.foldl_append]
  generalize (stageCopies env .admission victim key .ok .ok).foldl (perform env) cache = reached
    at filled staged map_eq pev_eq
  have refilled := fun array fills =>
    @filled_recordFilled _ env .admission reached victim key array (filled array fills)
  obtain ⟨recorded, settled, recorded_map, recorded_key, _, event⟩ :=
    staged.sound.recordFilled staged.settled
  obtain ⟨event, known, covered⟩ := event (by rw [pev_eq]; exact hasEvent)
  simp only [List.foldl_cons]
  generalize reached.perform env (.recordFilled victim .admission) = filledUp
    at refilled recorded settled recorded_map recorded_key known covered
  have raised : filledUp.perform env (.setPend victim) =
      { filledUp with pend := Function.update filledUp.pend victim true } := by
    simp only [perform, known, Option.isSome_some, if_true]
  rw [raised]
  have pending : CacheSound env kernels (some victim)
      { filledUp with pend := Function.update filledUp.pend victim true } :=
    recorded.of_busy rfl rfl rfl (fun slot away => Function.update_of_ne away _ _) fun _ _ => rfl
  have still_missed : filledUp.map key = none := by
    rw [recorded_map, map_eq]
    exact missed
  have unmapped : ∀ owner, filledUp.map owner ≠ some victim := by
    rw [recorded_map]
    exact staged.unmapped
  obtain ⟨owned, mapped, owner⟩ := pending.own unmapped still_missed refilled
  have flag : ({ filledUp with pend := Function.update filledUp.pend victim true }.perform env
      (.own victim key)).pend victim = true := Function.update_self _ _ _
  have closed := owned.close (fun other here => by
      rw [owner, Option.some.injEq] at here
      exact here ▸ mapped) (fun _ => ⟨event, known, covered⟩) fun low => by
        rw [flag] at low
        cases low
  generalize ExpertCache.perform env _ (.own victim key) = final at mapped flag closed
  have still : ∀ act ∈ [HostAct.stamp victim, .issued victim key, .ringPut index victim],
      act.still = true := by
    simp [HostAct.still]
  obtain ⟨final_map, final_key, final_pend, final_pev, final_device⟩ :=
    @performAll_still _ env _ still final
  simp only [List.foldl_cons, List.foldl_nil] at final_map final_key final_pend final_pev final_device ⊢
  refine ⟨closed.of_same final_map final_key final_pend final_pev final_device, ?_, ?_⟩
  · rw [final_pend]
    exact flag
  · rw [final_map]
    exact mapped

theorem admission_within (victim key index : Nat) :
    ∀ act ∈ admission env cache victim key index, act.Within victim .admission := by
  intro act member
  simp only [admission, List.mem_append, List.mem_cons, List.not_mem_nil, or_false] at member
  rcases member with (((rfl | rfl | rfl) | waits) | copies) | rfl | rfl | rfl | rfl | rfl | rfl
  · exact ⟨rfl, Or.inr rfl⟩
  · exact rfl
  · exact rfl
  · split at waits
    next =>
      rw [List.mem_singleton.mp waits]
      exact ⟨rfl, rfl⟩
    next => exact absurd waits List.not_mem_nil
  · exact stageCopies_within .admission victim key act copies
  · exact ⟨rfl, rfl⟩
  all_goals exact rfl

/-- An admission behind the event of the last CPU layer fills its victim and raises its flag. -/
theorem admission_replaced {victim key index event : Nat}
    (sound : CacheSound env kernels none cache) (missed : cache.map key = none)
    (marked : Guarding kernels victim cache event) (hasEvent : cache.pev victim ≠ none) :
    let after := (admission env cache victim key index).foldl (perform env) cache
    Replaced env kernels victim key .admission cache after ∧ after.pend victim = true := by
  have frame := @performAll_frame _ env victim .admission _
    (@admission_within _ env cache victim key index) cache
  obtain ⟨filling, pev_eq, keeps⟩ := admission_front sound marked
  have final := @admission_end _ env kernels _ victim key index filling (keeps key missed)
    (by rw [pev_eq]; exact hasEvent)
  rw [← List.foldl_append, ← List.append_assoc] at final
  obtain ⟨closed, raised, mapped⟩ := final
  have quiet : ∀ act ∈ [HostAct.awaitReady] ++ ((if cache.pend victim = true then
      [HostAct.await victim .admission] else []) ++
        stageCopies env .admission victim key .ok .ok), act.aside = true :=
    aside_append (by simp [HostAct.aside])
      (aside_append (aside_ite (by simp [HostAct.aside])) (stageCopies_aside _ _ _ _ _))
  have unmapped := @performAll_unmap _ env _ quiet cache victim (some .admission)
  have owned := @performAll_own _ env [.recordFilled victim .admission, .setPend victim]
    [.stamp victim, .issued victim key, .ringPut index victim] (by simp [HostAct.aside])
    (by simp [HostAct.aside]) ((.invalidate victim (some .admission) :: .unmap victim ::
      ([HostAct.awaitReady] ++ ((if cache.pend victim = true then
        [HostAct.await victim .admission] else []) ++
          stageCopies env .admission victim key .ok .ok))).foldl (perform env) cache) victim key
  rw [unmapped.1, unmapped.2, ← List.foldl_append] at owned
  simp only [List.cons_append, List.nil_append, List.append_assoc] at owned
  have shape : admission env cache victim key index =
      .invalidate victim (some .admission) :: .unmap victim :: .awaitReady ::
        ((if cache.pend victim = true then [HostAct.await victim .admission] else []) ++
          (stageCopies env .admission victim key .ok .ok ++
            [.recordFilled victim .admission, .setPend victim, .own victim key, .stamp victim,
              .issued victim key, .ringPut index victim])) := by
    simp only [admission, List.cons_append, List.nil_append, List.append_assoc]
  rw [shape] at frame ⊢
  simp only [List.cons_append, List.nil_append, List.append_assoc] at closed raised mapped
  exact ⟨⟨closed, mapped, others_of_replace sound missed owned.1, frame⟩, raised⟩

/-- Up to its victim `moe_admit_async` only lowers flags, and it may stop there. -/
theorem moeAdmitAsync_cases {L e NE : Nat} (sound : CacheSound env kernels none cache)
    (honest : ∀ event, query event = true → event ∈ cache.device.ran) :
    let entered := cache.moeAdmitAsync env query L e NE .ok .ok
    Lowered cache entered.1 ∧ (entered.2 = [] ∨ cache.slots ≠ 0 ∧ cache.map (L * NE + e) = none ∧
      cache.ringOpen env query = true ∧ ∃ index,
        entered.2 = admission env entered.1 (cache.moeEvVictim env) (L * NE + e) index) := by
  simp only [moeAdmitAsync, ExpertCache.ringOpen]
  by_cases idle : cache.slots = 0 ∨ (cache.map (L * NE + e)).isSome = true ∨ env.admitCap = 0
  · rw [if_pos idle]
    exact ⟨Lowered.refl, Or.inl rfl⟩
  · rw [if_neg idle]
    have scanned := @scanRing_lowered _ env kernels cache query (List.range env.admitCap) 0 none
      sound honest
    have same := @scanRing_victim _ env query (List.range env.admitCap) cache 0 none
    generalize (List.range env.admitCap).foldl (scanRing query) (cache, 0, none) = result
      at scanned same ⊢
    obtain ⟨scan, inflight, free⟩ := result
    have reaped := scanned.trans (hf2Reap_lowered query scan)
    have victim := (hf2Reap_victim query scan).trans same
    cases free with
    | none => exact ⟨reaped, Or.inl rfl⟩
    | some index =>
        simp only
        by_cases full : env.admitCap ≤ inflight
        · rw [if_pos full]
          exact ⟨reaped, Or.inl rfl⟩
        · rw [if_neg full, victim]
          simp only [not_or, Bool.not_eq_true, Option.isSome_eq_false_iff,
            Option.isNone_iff_eq_none] at idle
          refine ⟨reaped, Or.inr ⟨idle.1, idle.2.1, ?_, index, ?_⟩⟩
          · rw [Option.isSome_some, Bool.true_and]
            exact decide_eq_true (Nat.lt_of_not_le full)
          · simp only [admission, and_self, if_true, List.append_assoc]

end Calls

end KairosEngine.Cuda
