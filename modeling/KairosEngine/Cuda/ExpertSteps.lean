import KairosEngine.Cuda.ExpertKernels

/-!
# What a statement does to the invariant

One lemma for every statement of a MID: what it copies, records and waits for keeps the kernels
apart from the copies, provided the branches without a wait have nothing to wait for.
-/

namespace KairosEngine.Cuda

open KairosEngine.Library Device

variable {Scores : Type}

/-! ## The order of the statements -/

section Shapes

variable {host after : FfnHost Scores} {act : FfnAct} {rest : List FfnAct}

theorem FfnAct.rank_pos (other : act ≠ .flush) : 1 ≤ act.rank := by
  cases act with
  | flush => exact absurd rfl other
  | _ => simp only [FfnAct.rank]; decide

/-- The overlap is entered once. -/
theorem FfnAct.Ahead.late {first second : FfnAct} (ahead : first.Ahead second)
    (entered : first = .ready) : 4 ≤ second.rank := by
  obtain ⟨rank, _, once, _⟩ := ahead
  subst entered
  cases second with
  | ready => exact absurd rfl (once rfl)
  | flush | sync => exact absurd rank (by decide)
  | admitOne L e => exact absurd rank (by decide : ¬ 3 ≤ 1)
  | setLane lane layer => exact absurd rank (by decide : ¬ 3 ≤ 2)
  | _ => simp only [FfnAct.rank]; decide

theorem Shape.behind (shape : Shape host (act :: rest)) {later : FfnAct} (member : later ∈ rest) :
    act.Ahead later := (List.pairwise_cons.mp shape.ahead).1 later member

/-- Before the uses no expert is given to a kernel, and before pass 1 there is no overlap. -/
theorem Shape.ungiven (shape : Shape host (act :: rest)) (early : act.rank < 6) :
    host.group = [] := by
  by_contra full
  exact absurd (shape.given full act List.mem_cons_self) (Nat.not_le.mpr early)

theorem Shape.unentered (shape : Shape host (act :: rest)) (early : act.rank < 4) :
    host.ovl = false :=
  Bool.eq_false_iff.mpr fun overlaps =>
    absurd (shape.late overlaps act List.mem_cons_self) (Nat.not_le.mpr early)

/-- Pass 1 runs in an overlap, and so does what follows it there. -/
theorem Shape.overlaps (shape : Shape host (act :: rest)) (late : 4 ≤ act.rank)
    (listed : host.ovl = true ∨ .ready ∈ act :: rest) : host.ovl = true := by
  rcases listed with overlaps | ready
  · exact overlaps
  · have high : 4 ≤ FfnAct.ready.rank := by
      rcases List.mem_cons.mp ready with rfl | later
      · exact late
      · exact Nat.le_trans late (shape.behind later).1
    exact absurd high (by decide)

/-- A statement that puts nothing before the rest. -/
theorem Shape.tail (shape : Shape host (act :: rest))
    (given : after.group ≠ [] → host.group ≠ [] ∨ 6 ≤ act.rank)
    (queued : after.admq ≠ [] → host.admq ≠ [] ∧ act ≠ .flush ∨ 7 ≤ act.rank)
    (ovl : after.ovl = true ↔ host.ovl = true ∨ act = .ready)
    (pass : ∀ i, act ≠ .pass1 i → after.pass i = host.pass i)
    (oncpu : ∀ k, after.oncpu k = true → host.oncpu k = true ∨ act = .readyNow k)
    (ne : after.cache.ne = host.cache.ne) (active : after.active = host.active) :
    Shape after rest := by
  have standing : host.ovl = true ∨ .ready ∈ act :: rest → after.ovl = true ∨ .ready ∈ rest := by
    rintro (overlaps | ready)
    · exact Or.inl (ovl.mpr (Or.inl overlaps))
    · rcases List.mem_cons.mp ready with same | later
      · exact Or.inl (ovl.mpr (Or.inr same.symm))
      · exact Or.inr later
  have quiet : ∀ k, .readyNow k ∈ act :: rest ∨ host.oncpu k = true →
      after.ovl = false ∧ .ready ∉ rest := by
    intro k reached
    obtain ⟨serial, unready⟩ := shape.onCpu k reached
    refine ⟨Bool.eq_false_iff.mpr fun overlaps => ?_, fun ready =>
      unready (List.mem_cons_of_mem act ready)⟩
    rcases ovl.mp overlaps with already | rfl
    · rw [serial] at already
      cases already
    · exact unready List.mem_cons_self
  refine ⟨(List.pairwise_cons.mp shape.ahead).2, fun group later member => ?_, fun admq => ?_,
    fun overlaps later member => ?_, fun i member => ?_, fun e member => ?_, fun grouped i member => ?_,
    ?_, ?_, fun serial i => ?_, fun k reached => ?_⟩
  · rcases given group with before | high
    · exact shape.given before later (List.mem_cons_of_mem act member)
    · exact Nat.le_trans high (shape.behind member).1
  · rcases queued admq with ⟨before, other⟩ | high
    · rcases shape.queued before with ⟨_, same⟩ | late
      · exact absurd (List.cons.inj same).1 other
      · exact Or.inr fun later member => late later (List.mem_cons_of_mem act member)
    · exact Or.inr fun later member => Nat.le_trans high (shape.behind member).1
  · rcases ovl.mp overlaps with before | entered
    · exact shape.late before later (List.mem_cons_of_mem act member)
    · exact (shape.behind member).late entered
  · obtain ⟨listed, ⟨grouped, used⟩, passed⟩ := shape.passing i (List.mem_cons_of_mem act member)
    have behind := shape.behind member
    refine ⟨standing listed, ⟨grouped, ?_⟩, (pass i (behind.2.2.2 i rfl)).trans passed⟩
    rcases List.mem_cons.mp used with rfl | later
    · exact absurd behind.1 (by decide : ¬ 6 ≤ 4)
    · exact later
  · obtain ⟨listed, inside⟩ := shape.fetching e (List.mem_cons_of_mem act member)
    exact ⟨standing listed, ne ▸ inside⟩
  · rw [active]
    exact shape.places grouped i (List.mem_cons_of_mem act member)
  · rw [active, ne]
    exact shape.experts
  · rw [active]
    exact shape.distinct
  · have before : host.ovl = false := Bool.eq_false_iff.mpr fun overlaps => by
      rw [ovl.mpr (Or.inl overlaps)] at serial
      cases serial
    refine (pass i ?_).trans (shape.serial before i)
    rintro rfl
    have overlaps := shape.overlaps (Nat.le_refl 4) (shape.passing i List.mem_cons_self).1
    rw [before] at overlaps
    cases overlaps
  · rcases reached with later | raised
    · exact quiet k (Or.inl (List.mem_cons_of_mem act later))
    · rcases oncpu k raised with before | rfl
      · exact quiet k (Or.inr before)
      · exact quiet k (Or.inl List.mem_cons_self)

/-- The admissions aside, what is left of the call stays. -/
theorem mem_admitted {entries : List (Nat × Nat)} {later : FfnAct}
    (other : ∀ L e, later ≠ .admitOne L e) :
    later ∈ entries.map (fun entry => FfnAct.admitOne entry.1 entry.2) ++ rest ↔ later ∈ rest := by
  rw [List.mem_append]
  constructor
  · rintro (admitted | member)
    · obtain ⟨entry, _, rfl⟩ := List.mem_map.mp admitted
      exact absurd rfl (other entry.1 entry.2)
    · exact member
  · exact Or.inr

/-- The queue is put before the rest of its call. -/
theorem Shape.admit (shape : Shape host rest) (late : ∀ act ∈ rest, 1 ≤ act.rank)
    (given : host.group = []) (queued : host.admq = []) (serial : host.ovl = false)
    (entries : List (Nat × Nat)) :
    Shape host (entries.map (fun entry => .admitOne entry.1 entry.2) ++ rest) := by
  obtain ⟨ahead, _, _, _, passing, fetching, places, experts, distinct, passes, onCpu⟩ := shape
  refine ⟨?_, fun group => absurd given group, fun admq => absurd queued admq, fun overlaps => ?_,
    fun i member => ?_, fun e member => ?_, fun grouped i member => ?_, experts, distinct, passes,
    fun k reached => ?_⟩
  · refine List.pairwise_append.mpr ⟨?_, ahead, fun first admitted second member => ?_⟩
    · refine List.Pairwise.map _ (fun _ _ _ => ?_) (List.pairwise_of_forall (l := entries)
        (R := fun _ _ => True) fun _ _ => trivial)
      exact ⟨Nat.le_refl 1, nofun, nofun, nofun⟩
    · obtain ⟨entry, _, rfl⟩ := List.mem_map.mp admitted
      have rank := late second member
      refine ⟨rank, ?_, fun _ => nofun, fun _ _ => nofun⟩
      rintro rfl
      exact absurd rank (by decide)
  · rw [serial] at overlaps
    cases overlaps
  · rw [@mem_admitted rest entries (.pass1 i) fun _ _ => nofun] at member
    obtain ⟨listed, ⟨grouped, used⟩, passed⟩ := passing i member
    refine ⟨?_, ⟨grouped, (@mem_admitted rest entries (.use grouped i) fun _ _ => nofun).mpr used⟩, passed⟩
    rwa [@mem_admitted rest entries .ready fun _ _ => nofun]
  · rw [@mem_admitted rest entries (.prefetch e) fun _ _ => nofun] at member
    rw [@mem_admitted rest entries .ready fun _ _ => nofun]
    exact fetching e member
  · rw [@mem_admitted rest entries (.use grouped i) fun _ _ => nofun] at member
    exact places grouped i member
  · rw [@mem_admitted rest entries (.readyNow k) fun _ _ => nofun] at reached
    rw [@mem_admitted rest entries .ready fun _ _ => nofun]
    exact onCpu k reached

end Shapes

/-! ## The event of the queued experts -/

section Marks

variable {env : CacheEnv Scores} {kernels : List Kernel} {victim : Option Nat}
variable {before after : ExpertCache Scores} {stream : CudaStream} {event : Nat}

/-- Calls that issue to the copy streams leave the mark. -/
theorem EventMark.frame (mark : EventMark before kernels event)
    (frame : Frame victim stream before after) (away : stream ≠ .compute) :
    EventMark after kernels event := by
  obtain ⟨operations, grown, fits⟩ := frame.issues
  obtain ⟨recorded, present, quiet, kernels⟩ := mark
  have inside := (List.getElem?_eq_some_iff.mp present).1
  refine ⟨frame.ready_eq.trans recorded, ?_, fun j operation behind there onCompute => ?_, kernels⟩
  · rw [grown, issueAll, List.getElem?_append_left inside]
    exact present
  · rw [grown, issueAll] at there
    by_cases old : j < before.device.log.length
    · rw [List.getElem?_append_left old] at there
      exact quiet j operation behind there onCompute
    · rw [List.getElem?_append_right (Nat.le_of_not_lt old)] at there
      exact (fits operation (List.mem_of_getElem? there)).2 onCompute away

theorem EventMark.lowered (mark : EventMark before kernels event) (lowered : Lowered before after) :
    EventMark after kernels event := by
  obtain ⟨recorded, present, quiet, kernels⟩ := mark
  refine ⟨lowered.ready_eq.trans recorded, ?_, ?_, kernels⟩
  · rwa [lowered.device_eq]
  · rwa [lowered.device_eq]

/-- An event that is recorded behind all kernels. -/
theorem eventMark_record (sound : CacheSound env kernels none before) :
    EventMark { before with
      admReady := some before.device.ticket, device := before.device.record .compute } kernels
      before.device.ticket := by
  refine ⟨rfl, log_issue_ticket before.device _, fun j operation behind there _ => ?_,
    fun kernel member => ?_⟩
  · have inside := (List.getElem?_eq_some_iff.mp there).1
    rw [Device.record, Device.issue, List.length_append, List.length_singleton] at inside
    exact absurd (Nat.le_of_lt_succ inside) (Nat.not_le.mpr behind)
  · exact (List.getElem?_eq_some_iff.mp (sound.kernels kernel member).present).1

/-- What the decode stream has done before the mark guards an admission. -/
theorem EventMark.guarding {victim : Nat} (mark : EventMark before kernels event)
    (sound : CacheSound env kernels none before)
    (settled : before.pend victim = false → SlotSettled before.device victim .compute) :
    Guarding kernels victim before event := by
  obtain ⟨recorded, present, quiet, earlier⟩ := mark
  refine ⟨recorded, fun lowered c copy => ?_, fun kernel member _ => ?_⟩
  · have plain : ∀ j operation, event < j → before.device.log[j]? = some operation →
        operation.stream = .compute → operation.after = none := by
      intro j operation behind there onCompute
      rw [quiet j operation behind there onCompute]
    rcases (settled lowered c copy).covered_of_quiet present rfl plain with
      covered | ⟨operation, there, onCompute, behind⟩
    · exact covered
    · -- a copy at the mark or behind it would be work of the decode stream
      obtain ⟨copied, array, key, stored, work⟩ := copy
      obtain rfl := Option.some.inj (there.symm.trans stored)
      rcases Nat.lt_or_eq_of_le behind with later | rfl
      · rw [quiet c operation later there onCompute] at work
        cases work
      · rw [present, Option.some.injEq] at there
        rw [← there] at work
        cases work
  · have onStream := (sound.kernels kernel member).present
    exact Or.inr (.single ⟨_, _, onStream, present, Or.inl ⟨earlier kernel member, rfl⟩⟩)

variable {host next : FfnHost Scores} {act : FfnAct} {rest : List FfnAct}

/-- Between the flush and the end of a call nothing is queued. -/
theorem Queued.of_rank (shape : Shape host (act :: rest)) (behind : 2 ≤ act.rank)
    (before : act.rank ≤ 6) (admq : next.admq ≠ [] → host.admq ≠ []) : Queued next rest := by
  rintro (queued | ⟨L, e, listed⟩)
  · rcases shape.queued (admq queued) with ⟨_, same⟩ | late
    · rw [(List.cons.inj same).1] at behind
      exact absurd behind (by decide)
    · exact absurd (late act List.mem_cons_self) (by omega)
  · have rank := (shape.behind listed).1
    exact absurd (Nat.le_trans behind rank) (by decide : ¬ 2 ≤ 1)

/-- Behind the flush an admission is not in the list. -/
theorem Queued.of_mark (shape : Shape host (act :: rest)) (behind : 2 ≤ act.rank)
    (marked : next.admq ≠ [] → ∃ event, EventMark next.cache next.kernels event) :
    Queued next rest := by
  rintro (queued | ⟨L, e, listed⟩)
  · exact marked queued
  · have rank := (shape.behind listed).1
    exact absurd (Nat.le_trans behind rank) (by decide : ¬ 2 ≤ 1)

end Marks

/-! ## Statements outside the expert passes -/

section Plain

variable {env : CacheEnv Scores} {host : FfnHost Scores} {todo rest : List FfnAct}
variable {query : Nat → Bool} {act : FfnAct}

theorem HostSound.lowered {after : ExpertCache Scores} (sound : HostSound env host todo)
    (lowered : Lowered host.cache after) : HostSound env { host with cache := after } todo :=
  sound.kept_none (sound.cache.lowered lowered) lowered.kept

theorem HostSound.idled {stream : CudaStream} {after : ExpertCache Scores}
    (sound : HostSound env host todo) (idled : Idled stream host.cache after) :
    HostSound env { host with cache := after } todo :=
  sound.kept_none (sound.cache.idled idled) idled.kept

theorem idled_record (cache : ExpertCache Scores) (stream other : CudaStream) :
    Idled stream cache { cache with device := cache.device.record other } :=
  ⟨Frame.of_issue (fits_record stream other), rfl, rfl⟩

theorem idled_wait (cache : ExpertCache Scores) (stream : CudaStream) (event : Option Nat) :
    Idled stream cache { cache with device := cache.device.wait stream event } :=
  ⟨Frame.of_issue (fits_wait stream event), rfl, rfl⟩

/-- The decode stream is settled for the kernels. -/
theorem kernel_settled {kernels : List Kernel} {cache : ExpertCache Scores} {kernel : Kernel}
    (sound : CacheSound env kernels none cache) (member : kernel ∈ kernels) :
    cache.device.Settled .compute kernel.ticket :=
  Or.inr ⟨kernel.ticket, _, (sound.kernels kernel member).present, rfl, Or.inl rfl⟩

theorem HostSound.setLane (sound : HostSound env host todo) (lane : Nat) (layer : Option Nat) :
    HostSound env (host.serve env query (.setLane lane layer)) todo :=
  sound.lowered ⟨rfl, rfl, rfl, rfl, rfl, rfl, rfl, rfl, fun _ => Or.inl rfl⟩

theorem HostSound.flush (sound : HostSound env host todo) :
    HostSound env { host.serve env query .reap with admq := [] } todo := by
  obtain ⟨cache, off, fetched, overlapping, picked, given⟩ :=
    sound.lowered (hf2Reap_lowered query host.cache)
  exact ⟨cache, off, fetched, overlapping, picked, given⟩

theorem HostSound.readyNow (sound : HostSound env host todo)
    (honest : ∀ event, query event = true → event ∈ host.cache.device.ran) (L e NE : Nat)
    (oncpu : Nat → Bool) :
    HostSound env { host with cache := (host.cache.moeReadyNow env query L e NE).2, oncpu } todo := by
  obtain ⟨cache, off, fetched, overlapping, picked, given⟩ :=
    sound.lowered (moeReadyNow_lowered sound.cache honest)
  exact ⟨cache, off, fetched, overlapping, picked, given⟩

theorem HostSound.recordReady (sound : HostSound env host todo) (admq : List (Nat × Nat)) :
    HostSound env { host.serve env query .recordReady with admq } todo := by
  have recorded := sound.idled (idled_record host.cache .overlap .compute)
  have cacheSound := recorded.cache
  obtain ⟨_, off, fetched, overlapping, picked, given⟩ := recorded
  exact ⟨cacheSound.of_same rfl rfl rfl rfl rfl, off, fetched,
    fun overlaps => ⟨(overlapping overlaps).slots, (overlapping overlaps).kernels⟩, picked, given⟩

theorem Fetched.clear {cache : ExpertCache Scores} {pfHas : Nat → Nat → Bool}
    {pfEv : Nat → Nat → Option Nat} {awaiting : Nat → Nat → Nat → Prop}
    (fetched : Fetched cache pfHas pfEv awaiting) (b : Nat) :
    Fetched cache (Function.update pfHas b fun _ => false) pfEv awaiting := by
  intro L e slot inside has known
  have other : L % 2 ≠ b := by
    rintro rfl
    rw [Function.update_self] at has
    cases has
  rw [Function.update_of_ne other] at has
  exact fetched L e slot inside has known

theorem HostSound.pfOpen (sound : HostSound env host todo) (b : Nat) :
    HostSound env { host with pfHas := Function.update host.pfHas b fun _ => false } todo := by
  obtain ⟨cache, off, fetched, overlapping, picked, given⟩ := sound
  exact ⟨cache, off, fetched.clear b, overlapping, picked, given⟩

/-- The overlap begins behind what the decode stream has been given. -/
theorem HostSound.ready (sound : HostSound env host todo) (unpassed : ∀ i, host.pass i = none)
    (given : host.group = []) :
    HostSound env { (host.record .compute).wait .overlap (some host.ticket) with ovl := true }
      todo := by
  let recorded : ExpertCache Scores := { host.cache with device := host.cache.device.record .compute }
  have idled : Idled .overlap host.cache
      { recorded with device := recorded.device.wait .overlap (some host.ticket) } :=
    (idled_record host.cache .overlap .compute).trans (idled_wait recorded .overlap _)
  have cache := sound.cache.idled idled
  have kept := idled.kept
  refine ⟨cache, fun off => sound.off off, ?_, fun _ => ⟨fun slot => ?_, fun kernel member => ?_⟩,
    fun grouped i picked _ passed => ?_, fun _ entry member => ?_⟩
  · refine sound.fetched.kept kept nofun fun L e slot waits => ?_
    obtain ⟨_, i, _, _, _, _, passed⟩ := waits
    rw [unpassed i] at passed
    cases passed
  · cases raised : host.cache.pend slot with
    | true => exact Or.inl raised
    | false =>
        rcases sound.cache.placed slot nofun raised with compute | overlap
        · exact Or.inr (compute.record.wait .overlap)
        · exact Or.inr (kept.settled slot .overlap nofun overlap)
  · exact Or.inl ((kernel_settled sound.cache member).cross .overlap)
  · rw [show ({ (host.record .compute).wait .overlap (some host.ticket) with
      ovl := true } : FfnHost Scores).pass = host.pass from rfl, unpassed i] at passed
    cases passed
  · have none : entry ∈ host.group := member
    rw [given] at none
    cases none

/-- An admission fills a slot that nothing before the event of its layer reads later. -/
theorem HostSound.admitOne {L e : Nat} (sound : HostSound env host (.admitOne L e :: rest))
    (shape : Shape host (.admitOne L e :: rest))
    (honest : ∀ event, query event = true → event ∈ host.cache.device.ran) {event : Nat}
    (mark : EventMark host.cache host.kernels event)
    (suffice : host.WaitsSuffice env query (.admitOne L e)) :
    HostSound env (host.serve env query (.admitAsync L e host.cache.ne .ok .ok))
        (.admitOne L e :: rest) ∧
      EventMark (host.serve env query (.admitAsync L e host.cache.ne .ok .ok)).cache host.kernels
        event ∧
        (host.serve env query (.admitAsync L e host.cache.ne .ok .ok)).cache.ne = host.cache.ne := by
  obtain ⟨lowered, ends⟩ := @moeAdmitAsync_cases _ env host.kernels host.cache query L e host.cache.ne
    sound.cache honest
  have served : host.cache.serve env (.admitAsync L e host.cache.ne .ok .ok, query) =
      (host.cache.moeAdmitAsync env query L e host.cache.ne .ok .ok).2.foldl
        (ExpertCache.perform env)
        (host.cache.moeAdmitAsync env query L e host.cache.ne .ok .ok).1 := rfl
  have serial := shape.unentered (by decide : 1 < 4)
  have soundly : ∀ after, CacheSound env host.kernels none after → ∀ victim,
      Kept victim host.cache after → (∀ slot, victim = some slot → after.slots ≠ 0) →
        (∀ slot, victim = some slot → after.pend slot = true) →
          HostSound env { host with cache := after } (.admitOne L e :: rest) := by
    intro after cache victim kept on raised
    refine sound.kept cache kept on (fun slot same => Or.inl (raised slot same))
      (fun slot same _ => Or.inl (raised slot same)) (fun grouped i picked _ passed => ?_)
      fun listed => ?_
    · rw [shape.serial serial i] at passed
      cases passed
    · intro entry member
      rw [shape.ungiven (by decide : 1 < 6)] at member
      exact absurd member List.not_mem_nil
  generalize (host.cache.moeAdmitAsync env query L e host.cache.ne .ok .ok) = entered
    at lowered ends served
  obtain ⟨entered, acts⟩ := entered
  simp only at lowered ends served
  rcases ends with rfl | ⟨on, missed, ready, index, rfl⟩
  · rw [FfnHost.serve, served]
    exact ⟨soundly _ (sound.cache.lowered lowered) none lowered.kept nofun nofun,
      mark.lowered lowered, lowered.ne_eq⟩
  · obtain ⟨hasEvent, settled⟩ := suffice missed ready
    generalize host.cache.moeEvVictim env = victim at hasEvent settled served
    rw [← lowered.pev_eq] at hasEvent
    have reached := sound.cache.lowered lowered
    have marked := mark.lowered lowered
    have guarding := marked.guarding reached fun low => by
      rw [lowered.device_eq]
      rcases lowered.pend victim with same | ⟨_, landed⟩
      · exact settled (same.symm.trans low)
      · exact landed.settled .compute
    have missing : entered.map (L * host.cache.ne + e) = none := by
      rw [lowered.map_eq]
      exact missed
    obtain ⟨replaced, raised⟩ := @admission_replaced _ env host.kernels entered victim
      (L * host.cache.ne + e) index event reached missing guarding hasEvent
    rw [FfnHost.serve, served]
    refine ⟨soundly _ replaced.sound (some victim) (lowered.kept.of_none.trans replaced.kept)
      (fun _ _ => ?_) (fun slot same => ?_), marked.frame replaced.frame nofun,
      replaced.frame.ne_eq.trans lowered.ne_eq⟩
    · rw [replaced.frame.slots_eq, lowered.slots_eq]
      exact on
    · rw [← Option.some.inj same]
      exact raised

end Plain

/-! ## Copies of the overlap stream -/

section Overlaps

variable {env : CacheEnv Scores} {host next : FfnHost Scores} {todo rest : List FfnAct}
variable {query : Nat → Bool} {kernels : List Kernel} {held : Nat → Prop}
variable {cache : ExpertCache Scores}

theorem key_injective {L L' e e' ne : Nat} (inside : e < ne) (inside' : e' < ne)
    (same : L * ne + e = L' * ne + e') : L = L' ∧ e = e' := by
  have positive : 0 < ne := Nat.zero_lt_of_lt inside
  have layers := congrArg (· / ne) same
  simp only [Nat.mul_comm _ ne, Nat.mul_add_div positive, Nat.div_eq_of_lt inside,
    Nat.div_eq_of_lt inside', Nat.add_zero] at layers
  subst layers
  exact ⟨rfl, Nat.add_left_cancel same⟩

/-- A miss on the overlap stream, where its victim is no slot that is handed out. -/
theorem overlap_miss_replaced {L e : Nat} (sound : CacheSound env kernels none cache)
    (overlapping : Overlapping cache kernels held) (on : cache.slots ≠ 0)
    (missed : cache.map (L * cache.ne + e) = none)
    (suffice : cache.dmapOn = false → ¬ held (cache.moeEvVictim env)) :
    let after := cache.serve env (.resident L e cache.ne .overlap .ok .ok, query)
    Replaced env kernels (cache.moeEvVictim env) (L * cache.ne + e) .overlap cache after ∧
      SlotSettled after.device (cache.moeEvVictim env) .overlap ∧
        after.pend (cache.moeEvVictim env) = false := by
  refine moeResident_miss_replaced sound on missed rfl (Or.inr rfl) (fun lowered => ?_)
    fun kernel member same => ?_
  · rcases overlapping.slots (cache.moeEvVictim env) with raised | settled
    · rw [lowered] at raised
      cases raised
    · exact settled
  · rw [if_neg (by decide : ¬ CudaStream.overlap = .compute)]
    simp only [ExpertCache.perform, ExpertCache.hf2Invalidate]
    split
    next => exact (kernel_settled sound member).cross .overlap
    next off =>
      rcases overlapping.kernels kernel member with settled | handed
      · exact settled
      · rw [same] at handed
        exact absurd handed (suffice (Bool.not_eq_true _ ▸ off))

/-- A miss on the decode stream is behind the kernels. -/
theorem compute_miss_replaced {L e : Nat} (sound : CacheSound env kernels none cache)
    (on : cache.slots ≠ 0) (missed : cache.map (L * cache.ne + e) = none)
    (placed : cache.pend (cache.moeEvVictim env) = false →
      SlotSettled cache.device (cache.moeEvVictim env) .compute) :
    let after := cache.serve env (.resident L e cache.ne .compute .ok .ok, query)
    Replaced env kernels (cache.moeEvVictim env) (L * cache.ne + e) .compute cache after ∧
      SlotSettled after.device (cache.moeEvVictim env) .compute ∧
        after.pend (cache.moeEvVictim env) = false := by
  refine moeResident_miss_replaced sound on missed rfl (Or.inl rfl) placed fun kernel member _ => ?_
  have settled := kernel_settled sound member
  rw [if_pos rfl]
  simp only [ExpertCache.perform, ExpertCache.hf2Invalidate]
  split
  next => exact settled
  next => exact settled

/-- With the cache off an expert is staged outside of it. -/
theorem FfnHost.serve_off (off : host.cache.slots = 0) (L e NE : Nat) (stream : CudaStream) :
    host.serve env query (.resident L e NE stream .ok .ok) = host := by
  simp only [FfnHost.serve, ExpertCache.serve, ExpertCache.enter, ExpertCache.moeResident,
    if_pos off, List.foldl_nil]

theorem FfnHost.Held.passed {i slot : Nat} {picked : Option Picked} (held : host.Held slot)
    (fresh : host.pass i = none) (pass : next.pass = Function.update host.pass i picked) :
    next.Held slot := by
  obtain ⟨place, handed, passed, same⟩ := held
  refine ⟨place, handed, ?_, same⟩
  rw [pass, Function.update_of_ne, passed]
  rintro rfl
  rw [fresh] at passed
  cases passed

theorem FfnHost.Awaiting.passed {i L e slot : Nat} {picked : Option Picked}
    (awaiting : host.Awaiting todo L e slot) (fresh : host.pass i = none)
    (pass : next.pass = Function.update host.pass i picked) (ovl : next.ovl = host.ovl)
    (layer : next.L = host.L) (active : next.active = host.active) :
    next.Awaiting todo L e slot := by
  obtain ⟨grouped, place, listed, overlaps, here, expert, passed⟩ := awaiting
  refine ⟨grouped, place, listed, ovl.trans overlaps, layer.trans here, ?_, ?_⟩
  · rw [FfnHost.expert, active]
    exact expert
  · rw [pass, Function.update_of_ne, passed]
    rintro rfl
    rw [fresh] at passed
    cases passed

theorem Shape.expert_lt {grouped : Bool} {place : Nat} (shape : Shape host todo)
    (listed : .use grouped place ∈ todo) : host.expert place < host.cache.ne := by
  have inside := shape.places grouped place listed
  rw [FfnHost.expert, List.getD_eq_getElem?_getD, List.getElem?_eq_getElem inside,
    Option.getD_some]
  exact shape.experts _ (List.getElem_mem inside)

theorem Shape.unpassed {i : Nat} (shape : Shape host (.pass1 i :: rest)) :
    host.ovl = true ∧ host.group = [] ∧ host.pass i = none ∧ host.expert i < host.cache.ne ∧
      ∃ grouped, .use grouped i ∈ rest := by
  obtain ⟨listed, ⟨grouped, used⟩, fresh⟩ := shape.passing i List.mem_cons_self
  have later : .use grouped i ∈ rest := by
    rcases List.mem_cons.mp used with same | later
    · cases same
    · exact later
  exact ⟨shape.overlaps (Nat.le_refl 4) listed, shape.ungiven (by decide : 4 < 6), fresh,
    shape.expert_lt used, grouped, later⟩

/-- Pass 1 finds the expert in a slot. -/
theorem HostSound.pass1_hit {i slot : Nat} (sound : HostSound env host (.pass1 i :: rest))
    (shape : Shape host (.pass1 i :: rest))
    (honest : ∀ event, query event = true → event ∈ host.cache.device.ran)
    (hit : host.cache.map (host.key host.L (host.expert i)) = some slot) :
    HostSound env { host.serve env query
        (.resident host.L (host.expert i) host.cache.ne .overlap .ok .ok) with
      pass := Function.update host.pass i (some { slot, copied := false }) } (.pass1 i :: rest) ∧
      (host.cache.serve env (.resident host.L (host.expert i) host.cache.ne .overlap .ok .ok,
        query)).map (host.key host.L (host.expert i)) = some slot := by
  obtain ⟨overlaps, unlaunched, fresh, _, _⟩ := shape.unpassed
  have on : host.cache.slots ≠ 0 := by
    intro off
    rw [sound.off off] at hit
    cases hit
  obtain ⟨⟨middle, lowered, idled⟩, _⟩ := @moeResident_hit_idled _ env host.kernels host.cache query
    slot host.L (host.expert i) host.cache.ne sound.cache on honest hit .overlap
  have kept := lowered.kept.trans idled.kept
  have cache := (sound.cache.lowered lowered).idled idled
  have kept_map := kept.mapped nofun hit
  have served := sound.kept_none cache kept
  refine ⟨⟨cache, served.off, ?_, fun _ => ?_, fun grouped place picked listed passed => ?_,
    fun _ entry member => ?_⟩, kept_map⟩
  · refine sound.fetched.kept kept nofun fun L e slot waits => Or.inr ?_
    exact waits.passed fresh rfl rfl rfl rfl
  · exact (sound.overlapping overlaps).kept kept nofun fun slot held => held.passed fresh rfl
  · by_cases same : place = i
    · subst same
      simp only [Function.update_self, Option.some.injEq] at passed
      subst passed
      refine ⟨?_, nofun⟩
      have ne_eq : (host.cache.serve env (.resident host.L (host.expert place) host.cache.ne .overlap
        .ok .ok, query)).ne = host.cache.ne := kept.ne_eq
      simp only [FfnHost.key, FfnHost.expert, FfnHost.serve] at kept_map ne_eq ⊢
      rw [ne_eq]
      exact kept_map
    · simp only [Function.update_of_ne same] at passed
      exact served.picked grouped place picked listed passed
  · have none : entry ∈ host.group := member
    rw [unlaunched] at none
    cases none

/-- Pass 1 copies the expert into a slot it has not handed out, and records its event. -/
theorem HostSound.pass1_miss {i : Nat} (sound : HostSound env host (.pass1 i :: rest))
    (shape : Shape host (.pass1 i :: rest)) (on : host.cache.slots ≠ 0)
    (missed : host.cache.map (host.key host.L (host.expert i)) = none)
    (suffice : ∀ place picked, host.pass place = some picked →
      picked.slot ≠ host.cache.moeEvVictim env) :
    let served := host.serve env query
      (.resident host.L (host.expert i) host.cache.ne .overlap .ok .ok)
    HostSound env { served.record .overlap with
      pass := Function.update host.pass i
        (some { slot := host.cache.moeEvVictim env, copied := true })
      moeEv := Function.update host.moeEv i (some served.ticket) } (.pass1 i :: rest) ∧
      served.cache.map (host.key host.L (host.expert i)) = some (host.cache.moeEvVictim env) := by
  obtain ⟨overlaps, unlaunched, fresh, inside, grouped, used⟩ := shape.unpassed
  have apart : ¬ host.Held (host.cache.moeEvVictim env) := by
    rintro ⟨place, picked, passed, same⟩
    exact suffice place picked passed same
  obtain ⟨replaced, settled, lowered⟩ := @overlap_miss_replaced _ env query host.kernels host.Held
    host.cache host.L (host.expert i) sound.cache (sound.overlapping overlaps) on missed
    fun _ => apart
  simp only [FfnHost.serve, FfnHost.record, FfnHost.ticket]
  generalize host.cache.serve env (.resident host.L (host.expert i) host.cache.ne .overlap .ok .ok,
    query) = served at replaced settled lowered
  have idled := idled_record served .overlap .overlap
  have kept : Kept (some (host.cache.moeEvVictim env)) host.cache
      { served with device := served.device.record .overlap } :=
    replaced.kept.trans idled.kept.of_none
  have cache := replaced.sound.idled idled
  refine ⟨⟨cache, fun off => ?_, ?_, fun _ => ?_, fun grouped' place picked listed passed => ?_,
    fun _ entry member => ?_⟩, replaced.owned⟩
  · exact absurd (kept.slots_eq.symm.trans off) on
  · refine sound.fetched.kept kept (fun L e slot same within _ known => ?_) fun L e slot waits =>
      Or.inr (waits.passed fresh rfl rfl rfl rfl)
    obtain rfl := Option.some.inj same
    have owner := cache.owner _ _ known
    rw [cache.owner _ _ (show _ = some (host.cache.moeEvVictim env) from replaced.owned),
      Option.some.injEq, kept.ne_eq] at owner
    obtain ⟨rfl, rfl⟩ := key_injective inside (kept.ne_eq ▸ within) owner
    exact Or.inr (Or.inr (Or.inr ⟨grouped, i, List.mem_cons_of_mem _ used, overlaps, rfl, rfl,
      Function.update_self _ _ _⟩))
  · refine (sound.overlapping overlaps).kept kept (fun slot same => Or.inr ?_)
      fun slot held => held.passed fresh rfl
    obtain rfl := Option.some.inj same
    exact idled.kept.settled _ .overlap nofun settled
  · by_cases same : place = i
    · subst same
      simp only [Function.update_self, Option.some.injEq] at passed
      subst passed
      refine ⟨?_, fun _ => ⟨served.device.ticket, Function.update_self _ _ _, settled.record⟩⟩
      simp only [FfnHost.key, FfnHost.expert]
      rw [replaced.frame.ne_eq]
      exact replaced.owned
    · simp only [Function.update_of_ne same] at passed ⊢
      have away : some (host.cache.moeEvVictim env) ≠ some picked.slot := fun equal =>
        suffice place picked passed (Option.some.inj equal).symm
      obtain ⟨known, copied⟩ := sound.picked grouped' place picked listed passed
      refine ⟨?_, fun new => ?_⟩
      · have stays := kept.mapped away known
        simp only [FfnHost.key, FfnHost.expert] at stays ⊢
        rw [replaced.frame.ne_eq]
        exact stays
      · obtain ⟨event, recorded, covered⟩ := copied new
        exact ⟨event, recorded, kept.covered _ event away covered⟩
  · have none : entry ∈ host.group := member
    rw [unlaunched] at none
    cases none

theorem HostSound.pass1 {i : Nat} (sound : HostSound env host (.pass1 i :: rest))
    (shape : Shape host (.pass1 i :: rest))
    (honest : ∀ event, query event = true → event ∈ host.cache.device.ran)
    (suffice : host.WaitsSuffice env query (.pass1 i)) :
    HostSound env (host.act env query (.pass1 i)).1 (.pass1 i :: rest) := by
  cases known : host.cache.map (host.key host.L (host.expert i)) with
  | some slot =>
      obtain ⟨next, stays⟩ := sound.pass1_hit shape honest known
      simp only [FfnHost.act, FfnHost.serve, known, stays]
      exact next
  | none =>
      by_cases off : host.cache.slots = 0
      · simp only [FfnHost.act, FfnHost.serve_off off, known]
        exact sound
      · obtain ⟨next, stays⟩ := @HostSound.pass1_miss _ env host rest query i sound shape off known
          (suffice known)
        simp only [FfnHost.act, known, stays]
        exact next

end Overlaps

/-! ## The tensors of an expert -/

section Uses

variable {env : CacheEnv Scores} {host : FfnHost Scores} {rest : List FfnAct}
variable {query : Nat → Bool} {grouped : Bool} {i : Nat}

/-- What a slot gives the kernels: it is ready, or the loop still waits for its prefetch. -/
structure Usable (host : FfnHost Scores) (grouped : Bool) (e key slot : Nat) : Prop where
  known : host.cache.map key = some slot
  held : host.ovl = true → host.Held slot
  settled : SlotSettled host.cache.device slot .compute ∨
    (!grouped && host.pfAwaited e) = true ∧
      ∃ event, host.pfEv (host.L % 2) e = some event ∧ SlotCovered host.cache.device slot event

/-- The next kernel is given the slot, if there is one. -/
def FfnHost.give (host : FfnHost Scores) (key : Nat) : Option Nat → FfnHost Scores
  | some slot => { host with group := host.group ++ [(slot, key)] }
  | none => host

/-- An expert whose copy the decode stream waited for is awaited no longer. -/
theorem HostSound.used (sound : HostSound env host (.use grouped i :: rest))
    (lost : ∀ slot, host.ovl = true → host.pass i = some { slot, copied := true } →
      SlotSettled host.cache.device slot .compute) : HostSound env host rest := by
  obtain ⟨cache, off, fetched, overlapping, picked, given⟩ := sound
  refine ⟨cache, off, fetched.kept (@Kept.refl _ none host.cache) nofun fun L e slot waits => ?_, overlapping,
    fun grouped place slot listed => picked grouped place slot (List.mem_cons_of_mem _ listed),
    fun listed => given (List.mem_cons_of_mem _ listed)⟩
  obtain ⟨grouped', place, listed, overlaps, layer, expert, passed⟩ := waits
  rcases List.mem_cons.mp listed with same | later
  · cases same
    exact Or.inl (lost slot overlaps passed)
  · exact Or.inr ⟨grouped', place, later, overlaps, layer, expert, passed⟩

theorem HostSound.give {todo : List FfnAct} (sound : HostSound env host todo) {slot key : Nat}
    (known : host.cache.map key = some slot)
    (settled : SlotSettled host.cache.device slot .compute) (held : host.ovl = true → host.Held slot) :
    HostSound env { host with group := host.group ++ [(slot, key)] } todo := by
  obtain ⟨cache, off, fetched, overlapping, picked, given⟩ := sound
  refine ⟨cache, off, fetched, overlapping, picked, fun listed entry member => ?_⟩
  rcases List.mem_append.mp member with before | new
  · exact given listed entry before
  · rw [List.mem_singleton.mp new]
    exact ⟨known, settled, held⟩

/-- The wait of the loop for a prefetch. -/
def FfnHost.awaitFetch (host : FfnHost Scores) (grouped : Bool) (e : Nat) : FfnHost Scores :=
  if !grouped && host.pfAwaited e then host.wait .compute (host.pfEv (host.L % 2) e) else host

theorem HostSound.awaitFetch (sound : HostSound env host (.use grouped i :: rest))
    (lost : ∀ slot, host.ovl = true → host.pass i = some { slot, copied := true } →
      SlotSettled host.cache.device slot .compute) (key : Nat) (slot : Option Nat)
    (usable : ∀ found, slot = some found → Usable host grouped (host.expert i) key found) :
    HostSound env ((host.awaitFetch grouped (host.expert i)).give key slot) rest := by
  have ends : ∀ after, Idled .compute host.cache after →
      (∀ found, slot = some found → SlotSettled after.device found .compute) →
        HostSound env (({ host with cache := after } : FfnHost Scores).give key slot) rest := by
    intro after idled settled
    have later : HostSound env { host with cache := after } rest :=
      (sound.idled idled).used fun slot overlaps passed =>
        idled.kept.settled slot .compute nofun (lost slot overlaps passed)
    cases slot with
    | none => exact later
    | some slot =>
        have found := usable slot rfl
        exact later.give (idled.kept.mapped nofun found.known) (settled slot rfl) found.held
  unfold FfnHost.awaitFetch
  by_cases waits : (!grouped && host.pfAwaited (host.expert i)) = true
  · rw [if_pos waits]
    refine ends _ (idled_wait host.cache .compute _) fun found same => ?_
    rcases (usable found same).settled with settled | ⟨_, event, recorded, covered⟩
    · exact (idled_wait host.cache .compute _).kept.settled found .compute nofun settled
    · rw [recorded]
      exact covered.wait .compute
  · rw [if_neg waits]
    refine ends host.cache ⟨Frame.refl, rfl, rfl⟩ fun found same => ?_
    rcases (usable found same).settled with settled | ⟨awaited, _⟩
    · exact settled
    · exact absurd awaited waits

/-- A slot the kernels may read, or one whose prefetch the loop still waits for. -/
def FfnHost.ReadyOrAwaited (host : FfnHost Scores) (grouped : Bool) (e : Nat)
    (cache : ExpertCache Scores) (slot : Nat) : Prop :=
  SlotSettled cache.device slot .compute ∨
    (!grouped && host.pfAwaited e) = true ∧ ∃ event,
      host.pfEv (host.L % 2) e = some event ∧ SlotCovered cache.device slot event

/-- A slot that takes no wait of its own is settled, or the loop waits for its prefetch. -/
theorem HostSound.settled_or_fetched {slot : Nat} (sound : HostSound env host (.use grouped i :: rest))
    (inside : host.expert i < host.cache.ne)
    (known : host.cache.map (host.key host.L (host.expert i)) = some slot)
    (unpending : host.cache.pend slot = false)
    (unawaited : ¬ host.Awaiting (.use grouped i :: rest) host.L (host.expert i) slot)
    (suffice : grouped = true ∨ host.pfAwaited (host.expert i) = false →
      SlotSettled host.cache.device slot .compute) :
    host.ReadyOrAwaited grouped (host.expert i) host.cache slot := by
  by_cases waits : (!grouped && host.pfAwaited (host.expert i)) = true
  · have has : host.pfHas (host.L % 2) (host.expert i) = true := by
      simp only [FfnHost.pfAwaited, Bool.and_eq_true] at waits
      exact waits.2.2
    rcases sound.fetched _ _ slot inside has known with raised | settled | covered | awaiting
    · rw [unpending] at raised
      cases raised
    · exact Or.inl settled
    · exact Or.inr ⟨waits, covered⟩
    · exact absurd awaiting unawaited
  · refine Or.inl (suffice ?_)
    cases grouped with
    | true => exact Or.inl rfl
    | false => exact Or.inr (by simpa using waits)

/-- Two places have the same expert only if they are the same. -/
theorem Shape.place_unique {first second : Nat} {grouped' : Bool} {todo : List FfnAct}
    (shape : Shape host todo) (atFirst : .use grouped first ∈ todo)
    (atSecond : .use grouped' second ∈ todo) (same : host.expert first = host.expert second) :
    first = second := by
  have inFirst := shape.places grouped first atFirst
  have inSecond := shape.places grouped' second atSecond
  rw [FfnHost.expert, FfnHost.expert, List.getD_eq_getElem?_getD, List.getD_eq_getElem?_getD,
    List.getElem?_eq_getElem inFirst, List.getElem?_eq_getElem inSecond, Option.getD_some,
    Option.getD_some] at same
  exact (shape.distinct.getElem_inj_iff).mp same

/-- What a use does once its slot is resolved. -/
theorem FfnHost.act_use {next : FfnHost Scores} {slot : Option Nat}
    (onGpu : (grouped && host.oncpu i) = false) (resolved : host.resolve env query i = (next, slot))
    (waits : next.pfAwaited (host.expert i) = host.pfAwaited (host.expert i))
    (layer : next.L = host.L) :
    (host.act env query (.use grouped i)).1 =
      (next.awaitFetch grouped (host.expert i)).give (host.key host.L (host.expert i)) slot := by
  unfold FfnHost.act FfnHost.awaitFetch
  simp only [onGpu, resolved, waits, layer, Bool.false_eq_true, if_false]
  cases slot with
  | none => rfl
  | some slot => rfl

/-- In the overlap an expert is used in the slot that pass 1 found for it. -/
theorem HostSound.use_overlap (sound : HostSound env host (.use grouped i :: rest))
    (shape : Shape host (.use grouped i :: rest)) (overlaps : host.ovl = true)
    (onGpu : (grouped && host.oncpu i) = false)
    (suffice : host.WaitsSuffice env query (.use grouped i)) :
    HostSound env (host.act env query (.use grouped i)).1 rest := by
  have listed : .use grouped i ∈ FfnAct.use grouped i :: rest := List.mem_cons_self
  have guard := suffice onGpu
  simp only [overlaps, if_true] at guard
  cases passed : host.pass i with
  | none =>
      have resolved : host.resolve env query i = (host, none) := by
        simp only [FfnHost.resolve, overlaps, passed, if_true]
      rw [FfnHost.act_use onGpu resolved rfl rfl]
      refine sound.awaitFetch (fun slot _ handed => ?_) _ none nofun
      rw [passed] at handed
      cases handed
  | some picked =>
      obtain ⟨slot, copied⟩ := picked
      obtain ⟨known, recorded⟩ := sound.picked grouped i _ listed passed
      cases copied with
      | true =>
          obtain ⟨event, stored, covered⟩ := recorded rfl
          have settled : SlotSettled (host.cache.device.wait .compute (host.moeEv i)) slot
              .compute := by
            rw [stored]
            exact covered.wait .compute
          have waited := sound.idled (idled_wait host.cache .compute (host.moeEv i))
          have resolved : host.resolve env query i =
              (host.wait .compute (host.moeEv i), some slot) := by
            simp only [FfnHost.resolve, overlaps, passed, if_true]
          rw [FfnHost.act_use onGpu resolved rfl rfl]
          refine waited.awaitFetch (fun other _ handed => ?_) _ (some slot) fun found same => ?_
          · have same := handed.symm.trans passed
            cases same
            exact settled
          · cases same
            exact ⟨known, fun _ => ⟨i, _, passed, rfl⟩, Or.inl settled⟩
      | false =>
          have resolved : host.resolve env query i = (host, some slot) := by
            simp only [FfnHost.resolve, overlaps, passed, if_true, Bool.false_eq_true, if_false]
          rw [FfnHost.act_use onGpu resolved rfl rfl]
          refine sound.awaitFetch (fun other _ handed => ?_) _ (some slot) fun found same => ?_
          · rw [passed] at handed
            cases handed
          · cases same
            refine ⟨known, fun _ => ⟨i, _, passed, rfl⟩, ?_⟩
            cases raised : host.cache.pend slot with
            | true => exact Or.inl (guard { slot, copied := false } passed rfl (Or.inl raised))
            | false =>
                refine sound.settled_or_fetched (shape.expert_lt listed) known raised ?_
                  fun unawaited => guard { slot, copied := false } passed rfl (Or.inr unawaited)
                rintro ⟨grouped', place, there, _, _, expert, handed⟩
                rw [shape.place_unique there listed expert, passed] at handed
                cases handed

/-- Without an overlap the loop goes on with the slot that the call leaves for the expert. -/
theorem HostSound.give_served (serial : host.ovl = false) {after : ExpertCache Scores}
    (next : HostSound env { host with cache := after } (.use grouped i :: rest))
    (ready : ∀ found, after.map (host.key host.L (host.expert i)) = some found →
      host.ReadyOrAwaited grouped (host.expert i) after found) :
    HostSound env ((({ host with cache := after } : FfnHost Scores).awaitFetch grouped
      (host.expert i)).give (host.key host.L (host.expert i))
        (after.map (host.key host.L (host.expert i)))) rest := by
  have never : host.ovl ≠ true := Bool.eq_false_iff.mp serial
  refine next.awaitFetch (fun _ overlaps _ => absurd overlaps never) _ _ fun found same => ?_
  exact ⟨same, fun overlaps => absurd overlaps never, ready found same⟩

/-- The slot of an expert that is there is ready, or the loop waits for its prefetch. -/
theorem HostSound.direct_hit {slot : Nat} (sound : HostSound env host (.use grouped i :: rest))
    (inside : host.expert i < host.cache.ne) (serial : host.ovl = false)
    (honest : ∀ event, query event = true → event ∈ host.cache.device.ran)
    (known : host.cache.map (host.key host.L (host.expert i)) = some slot)
    (suffice : host.cache.pend slot = false →
      grouped = true ∨ host.pfAwaited (host.expert i) = false →
        SlotSettled host.cache.device slot .compute) :
    let served := host.serve env query
      (.resident host.L (host.expert i) host.cache.ne .compute .ok .ok)
    HostSound env served (.use grouped i :: rest) ∧
      served.cache.map (host.key host.L (host.expert i)) = some slot ∧
      host.ReadyOrAwaited grouped (host.expert i) served.cache slot := by
  have on : host.cache.slots ≠ 0 := by
    intro off
    rw [sound.off off] at known
    cases known
  obtain ⟨⟨middle, lowered, idled⟩, flagged⟩ := @moeResident_hit_idled _ env host.kernels
    host.cache query slot host.L (host.expert i) host.cache.ne sound.cache on honest known .compute
  have kept := lowered.kept.trans idled.kept
  have cache := (sound.cache.lowered lowered).idled idled
  refine ⟨sound.kept_none cache kept, kept.mapped nofun known, ?_⟩
  cases raised : host.cache.pend slot with
  | true => exact Or.inl (flagged raised)
  | false =>
      have unawaited : ¬ host.Awaiting (.use grouped i :: rest) host.L (host.expert i) slot := by
        rintro ⟨_, _, _, overlaps, _⟩
        rw [serial] at overlaps
        cases overlaps
      rcases sound.settled_or_fetched inside known raised unawaited (suffice raised) with
        settled | ⟨waits, event, recorded, covered⟩
      · exact Or.inl (kept.settled slot .compute nofun settled)
      · exact Or.inr ⟨waits, event, recorded, kept.covered slot event nofun covered⟩

/-- An expert that is not there is copied behind everything the decode stream has been given. -/
theorem HostSound.direct_miss (sound : HostSound env host (.use grouped i :: rest))
    (shape : Shape host (.use grouped i :: rest)) (serial : host.ovl = false)
    (on : host.cache.slots ≠ 0)
    (missed : host.cache.map (host.key host.L (host.expert i)) = none)
    (placed : host.cache.pend (host.cache.moeEvVictim env) = false →
      SlotSettled host.cache.device (host.cache.moeEvVictim env) .compute)
    (apart : ∀ given ∈ host.group, given.1 ≠ host.cache.moeEvVictim env) :
    let served := host.serve env query
      (.resident host.L (host.expert i) host.cache.ne .compute .ok .ok)
    HostSound env served (.use grouped i :: rest) ∧
      ∃ slot, served.cache.map (host.key host.L (host.expert i)) = some slot ∧
        SlotSettled served.cache.device slot .compute := by
  obtain ⟨replaced, settled, lowered⟩ := @compute_miss_replaced _ env query host.kernels
    host.cache host.L (host.expert i) sound.cache on missed placed
  refine ⟨?_, _, replaced.owned, settled⟩
  refine sound.kept replaced.sound replaced.kept (fun _ _ => ?_) (fun slot same => Or.inr ?_)
    (fun slot _ overlaps => ?_) (fun _ place picked _ passed => ?_) fun _ entry member same => ?_
  · rw [replaced.frame.slots_eq]
    exact on
  · obtain rfl := Option.some.inj same
    exact settled
  · rw [serial] at overlaps
    cases overlaps
  · rw [shape.serial serial place] at passed
    cases passed
  · exact apart entry member (Option.some.inj same).symm

/-- Without an overlap an expert is resolved where it is used. -/
theorem HostSound.use_direct (sound : HostSound env host (.use grouped i :: rest))
    (shape : Shape host (.use grouped i :: rest)) (serial : host.ovl = false)
    (honest : ∀ event, query event = true → event ∈ host.cache.device.ran)
    (onGpu : (grouped && host.oncpu i) = false)
    (suffice : host.WaitsSuffice env query (.use grouped i)) :
    HostSound env (host.act env query (.use grouped i)).1 rest := by
  have guard := suffice onGpu
  simp only [serial, Bool.false_eq_true, if_false] at guard
  have resolved : host.resolve env query i =
      (host.serve env query (.resident host.L (host.expert i) host.cache.ne .compute .ok .ok),
        (host.serve env query (.resident host.L (host.expert i) host.cache.ne .compute .ok
          .ok)).cache.map (host.key host.L (host.expert i))) := by
    simp only [FfnHost.resolve, serial, Bool.false_eq_true, if_false]
  rw [FfnHost.act_use onGpu resolved rfl rfl]
  cases known : host.cache.map (host.key host.L (host.expert i)) with
  | some slot =>
      rw [known] at guard
      obtain ⟨next, stays, ready⟩ := sound.direct_hit (shape.expert_lt List.mem_cons_self) serial
        honest known guard
      refine HostSound.give_served serial next fun found same => ?_
      obtain rfl := Option.some.inj (stays.symm.trans same)
      exact ready
  | none =>
      by_cases off : host.cache.slots = 0
      · rw [FfnHost.serve_off off]
        refine HostSound.give_served serial sound fun found same => ?_
        rw [known] at same
        cases same
      · rw [known] at guard
        obtain ⟨next, slot, owned, settled⟩ := @HostSound.direct_miss _ env host rest query grouped
          i sound shape serial off known guard.1 guard.2
        refine HostSound.give_served serial next fun found same => ?_
        obtain rfl := Option.some.inj (owned.symm.trans same)
        exact Or.inl settled

/-- A kernel that is given a settled slot runs behind the copies for its expert. -/
theorem kernelSound_launch {kernels : List Kernel} {cache : ExpertCache Scores} {slot key : Nat}
    (sound : CacheSound env kernels none cache) (known : cache.map key = some slot)
    (settled : SlotSettled cache.device slot .compute) :
    KernelSound env (cache.device.record .compute) ⟨cache.device.ticket, slot, key⟩ := by
  refine ⟨log_issue_ticket cache.device _, fun c before copy => ?_, fun c later copy => ?_,
    fun array fills => ?_⟩
  · rcases copy.old_or_new with old | ⟨rfl, _⟩
    · exact @Settled.sooner_ticket _ _ _ c ⟨.compute, none, none⟩ (settled c old) sound.ordered
    · exact absurd before (Nat.lt_irrefl _)
  · have inside := copy.issued
    rw [Device.record, Device.issue, List.length_append, List.length_singleton] at inside
    exact absurd (Nat.le_of_lt_succ inside) (Nat.not_le.mpr later)
  · obtain ⟨c, operation, latest, work⟩ := sound.content key slot known array fills
    have inside := (List.getElem?_eq_some_iff.mp latest.present).1
    refine ⟨c, inside, operation, ?_, work, fun later other behind before there => ?_⟩
    · rw [Device.record, log_issue_of_lt inside]
      exact latest.present
    · rw [Device.record, log_issue_of_lt before] at there
      exact latest.last later other behind there

theorem HostSound.launch (sound : HostSound env host (.launch :: rest)) :
    HostSound env { host.record .compute with
      group := []
      kernels := host.kernels ++ host.group.map fun given =>
        { ticket := host.ticket, slot := given.1, key := given.2 } } rest := by
  have idled := idled_record host.cache .overlap .compute
  have recorded := (sound.idled idled).drop fun _ _ => nofun
  refine ⟨?_, recorded.off, recorded.fetched, fun overlaps => ?_, recorded.picked,
    fun _ entry member => absurd member List.not_mem_nil⟩
  · obtain ⟨ordered, copies, kernels, owner, mapped, content, pending, placed⟩ := recorded.cache
    refine ⟨ordered, copies, fun kernel member => ?_, owner, mapped, content, pending, placed⟩
    rcases List.mem_append.mp member with before | new
    · exact kernels kernel before
    · obtain ⟨entry, given, rfl⟩ := List.mem_map.mp new
      obtain ⟨known, settled, _⟩ := sound.given List.mem_cons_self entry given
      exact kernelSound_launch sound.cache known settled
  · obtain ⟨slots, kernels⟩ := recorded.overlapping overlaps
    refine ⟨slots, fun kernel member => ?_⟩
    rcases List.mem_append.mp member with before | new
    · exact kernels kernel before
    · obtain ⟨entry, given, rfl⟩ := List.mem_map.mp new
      exact Or.inr ((sound.given List.mem_cons_self entry given).2.2 overlaps)

end Uses

/-! ## The prefetch -/

section Fetches

variable {env : CacheEnv Scores} {host : FfnHost Scores} {rest : List FfnAct}
variable {query : Nat → Bool} {victim : Option Nat} {before after : ExpertCache Scores}
variable {pfHas : Nat → Nat → Bool} {pfEv : Nat → Nat → Option Nat}
variable {awaiting : Nat → Nat → Nat → Prop} {L e event : Nat}

/-- An event that covers every slot is recorded for an expert. -/
theorem Fetched.fetch (fetched : Fetched before pfHas pfEv awaiting)
    (kept : Kept victim before after)
    (owned : ∀ slot, victim = some slot → ∀ L' e', e' < after.ne →
      after.map (L' * after.ne + e') = some slot → L' = L ∧ e' = e)
    (covers : ∀ slot, after.pend slot = true ∨ SlotCovered after.device slot event) :
    Fetched after (Function.update pfHas (L % 2) (Function.update (pfHas (L % 2)) e true))
      (Function.update pfEv (L % 2) (Function.update (pfEv (L % 2)) e (some event))) awaiting := by
  intro L' e' slot inside has known
  by_cases here : L' % 2 = L % 2 ∧ e' = e
  · obtain ⟨parity, rfl⟩ := here
    rcases covers slot with raised | covered
    · exact Or.inl raised
    · refine Or.inr (Or.inr (Or.inl ⟨event, ?_, covered⟩))
      rw [parity, Function.update_self, Function.update_self]
  · have elsewhere : Function.update pfHas (L % 2) (Function.update (pfHas (L % 2)) e true) (L' % 2)
        e' = pfHas (L' % 2) e' ∧
        Function.update pfEv (L % 2) (Function.update (pfEv (L % 2)) e (some event)) (L' % 2) e' =
          pfEv (L' % 2) e' := by
      by_cases parity : L' % 2 = L % 2
      · have other : e' ≠ e := fun same => here ⟨parity, same⟩
        rw [parity, Function.update_self, Function.update_self, Function.update_of_ne other,
          Function.update_of_ne other]
        exact ⟨rfl, rfl⟩
      · rw [Function.update_of_ne parity, Function.update_of_ne parity]
        exact ⟨rfl, rfl⟩
    rw [elsewhere.1] at has
    rw [elsewhere.2]
    by_cases replaced : victim = some slot
    · obtain ⟨rfl, rfl⟩ := owned slot replaced L' e' inside known
      exact absurd ⟨rfl, rfl⟩ here
    · exact fetched.away kept replaced inside has known

theorem HostSound.prefetch (sound : HostSound env host (.prefetch e :: rest))
    (shape : Shape host (.prefetch e :: rest)) (suffice : host.WaitsSuffice env query (.prefetch e)) :
    HostSound env (host.act env query (.prefetch e)).1 (.prefetch e :: rest) ∧
      (host.act env query (.prefetch e)).1.cache.ne = host.cache.ne ∧
        ∀ event, EventMark host.cache host.kernels event →
          EventMark (host.act env query (.prefetch e)).1.cache host.kernels event := by
  cases known : host.cache.map (host.key (host.L + 1) e) with
  | some slot =>
      simp only [FfnHost.act, known, Option.isSome_some, if_true]
      exact ⟨sound, trivial, fun _ mark => mark⟩
  | none =>
      obtain ⟨listed, inside⟩ := shape.fetching e List.mem_cons_self
      have overlaps := shape.overlaps (by decide : 4 ≤ 8) listed
      have overlapping := sound.overlapping overlaps
      have unused : ∀ act, act ∈ FfnAct.prefetch e :: rest → 7 ≤ act.rank := by
        intro act member
        rcases List.mem_cons.mp member with rfl | later
        · exact (by decide : 7 ≤ 8)
        · exact Nat.le_trans (by decide : 7 ≤ 8) (shape.behind later).1
      have ends : ∀ victim (served : ExpertCache Scores), Kept victim host.cache served →
          Frame victim .overlap host.cache served → CacheSound env host.kernels none served →
            (∀ slot, victim = some slot → SlotSettled served.device slot .overlap) →
              (∀ slot, victim = some slot → served.slots ≠ 0 ∧
                served.map (host.key (host.L + 1) e) = some slot) →
                HostSound env { host with
                  cache := { served with device := served.device.record .overlap }
                  pfEv := Function.update host.pfEv ((host.L + 1) % 2)
                    (Function.update (host.pfEv ((host.L + 1) % 2)) e (some served.device.ticket))
                  pfHas := Function.update host.pfHas ((host.L + 1) % 2)
                    (Function.update (host.pfHas ((host.L + 1) % 2)) e true) }
                  (.prefetch e :: rest) ∧
                  served.ne = host.cache.ne ∧ ∀ event, EventMark host.cache host.kernels event →
                    EventMark { served with device := served.device.record .overlap } host.kernels
                      event := by
        intro victim served kept frame cache settled owned
        have idled := idled_record served .overlap .overlap
        have widened : Kept victim served _ := idled.kept.of_none
        have all := kept.trans widened
        have later := overlapping.kept kept (fun slot same => Or.inr (settled slot same))
          fun _ held => held
        refine ⟨⟨cache.idled idled, fun off key => ?_, ?_, fun _ => ?_, fun grouped i _ used => ?_,
          fun launched => ?_⟩, frame.ne_eq,
          fun event mark => (mark.frame frame nofun).frame idled.frame nofun⟩
        · cases there : served.map key with
          | none => rfl
          | some slot =>
              by_cases replaced : victim = some slot
              · exact absurd off (owned slot replaced).1
              · rw [kept.map key slot replaced, sound.off (kept.slots_eq.symm.trans off) key] at there
                cases there
        · refine sound.fetched.fetch all (fun slot same L' e' within there => ?_) fun slot => ?_
          · have owner := cache.owner _ _ there
            rw [cache.owner _ _ (owned slot same).2, Option.some.injEq, all.ne_eq] at owner
            obtain ⟨rfl, rfl⟩ := key_injective inside (all.ne_eq ▸ within) owner
            exact ⟨rfl, rfl⟩
          · rcases later.slots slot with raised | settled
            · exact Or.inl raised
            · exact Or.inr settled.record
        · exact later.kept widened (fun slot same => Or.inr
            (idled.kept.settled slot .overlap nofun (settled slot same))) fun _ held => held
        · exact absurd (unused _ used) (by decide : ¬ 7 ≤ 6)
        · exact absurd (unused _ launched) (by decide : ¬ 7 ≤ 6)
      by_cases off : host.cache.slots = 0
      · simp only [FfnHost.act, known, FfnHost.serve_off off]
        exact ends none host.cache Kept.refl Frame.refl sound.cache nofun nofun
      · obtain ⟨replaced, settled, _⟩ := @overlap_miss_replaced _ env query host.kernels host.Held
          host.cache (host.L + 1) e sound.cache overlapping off known fun unmapped => by
            rintro ⟨place, picked, passed, same⟩
            exact suffice known unmapped place picked passed same
        simp only [FfnHost.act, known]
        refine ends (some (host.cache.moeEvVictim env)) _ replaced.kept replaced.frame replaced.sound
          (fun slot same => ?_) fun slot same => ?_
        · obtain rfl := Option.some.inj same
          exact settled
        · obtain rfl := Option.some.inj same
          exact ⟨fun gone => off (replaced.frame.slots_eq.symm.trans gone), replaced.owned⟩

end Fetches

end KairosEngine.Cuda
