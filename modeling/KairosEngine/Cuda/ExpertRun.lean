import KairosEngine.Cuda.ExpertSteps

/-!
# Kernels and copies over runs

The statements of a call keep the invariant one by one, and so do the device and the next call.
Whatever runs first, a kernel then finds in its slot what was copied for its expert.
-/

namespace KairosEngine.Cuda

open KairosEngine.Library Device

variable {Scores : Type}

/-! ## The variables of a call -/

section Fields

variable {env : CacheEnv Scores} {host : FfnHost Scores} {query : Nat → Bool}

theorem perform_ne (cache : ExpertCache Scores) (act : HostAct) :
    (cache.perform env act).ne = cache.ne := by
  cases act
  all_goals
    simp only [ExpertCache.perform, ExpertCache.hf2Invalidate, ExpertCache.hf2Issued,
      ExpertCache.hf2UnpubAdd, ExpertCache.moeEvTouch]
    repeat' split
    all_goals rfl

theorem serve_resident_ne (cache : ExpertCache Scores) (L e NE : Nat) (stream : CudaStream) :
    (cache.serve env (.resident L e NE stream .ok .ok, query)).ne = cache.ne := by
  have all : ∀ acts : List HostAct, ∀ cache : ExpertCache Scores,
      (acts.foldl (ExpertCache.perform env) cache).ne = cache.ne := by
    intro acts
    induction acts with
    | nil => exact fun _ => rfl
    | cons act rest inductionHypothesis =>
        intro cache
        exact (inductionHypothesis _).trans (perform_ne cache act)
  exact all _ cache

theorem pass1_ne (i : Nat) : (host.act env query (.pass1 i)).1.cache.ne = host.cache.ne := by
  have served := @serve_resident_ne _ env query host.cache host.L (host.expert i) host.cache.ne
    .overlap
  simp only [FfnHost.act]
  split
  next => exact served
  next =>
    split
    next => exact served
    next => exact served

theorem use_ne (grouped : Bool) (i : Nat) :
    (host.act env query (.use grouped i)).1.cache.ne = host.cache.ne := by
  have served := @serve_resident_ne _ env query host.cache host.L (host.expert i) host.cache.ne
    .compute
  simp only [FfnHost.act, FfnHost.resolve]
  repeat' split
  all_goals first | rfl | exact served

/-- The variables that a statement leaves alone. -/
structure Carried (act : FfnAct) (host next : FfnHost Scores) : Prop where
  active : next.active = host.active
  pass : ∀ i, act ≠ .pass1 i → next.pass i = host.pass i
  oncpu : ∀ k, next.oncpu k = true → host.oncpu k = true ∨ act = .readyNow k
  ovl : next.ovl = true ↔ host.ovl = true ∨ act = .ready
  group : next.group ≠ [] → host.group ≠ [] ∨ 6 ≤ act.rank
  admq : next.admq ≠ [] → host.admq ≠ [] ∧ act ≠ .flush ∨ 7 ≤ act.rank

/-- A statement that touches the cache alone. -/
theorem Carried.of_cache {act : FfnAct} {next : FfnHost Scores} (other : act ≠ .ready)
    (behind : act ≠ .flush) (active : next.active = host.active) (pass : next.pass = host.pass)
    (oncpu : next.oncpu = host.oncpu) (ovl : next.ovl = host.ovl) (group : next.group = host.group)
    (admq : next.admq = host.admq) : Carried act host next := by
  refine ⟨active, fun i _ => congrFun pass i, fun k raised => Or.inl ?_, ?_, fun full => Or.inl ?_,
    fun full => Or.inl ⟨?_, behind⟩⟩
  · rwa [← oncpu]
  · rw [ovl]
    exact ⟨Or.inl, fun either => either.resolve_right other⟩
  · rwa [← group]
  · rwa [← admq]

theorem carried_pass1 (i : Nat) : Carried (.pass1 i) host (host.act env query (.pass1 i)).1 := by
  have ends : ∀ next : FfnHost Scores, next.active = host.active →
      (∀ place, place ≠ i → next.pass place = host.pass place) → next.oncpu = host.oncpu →
        next.ovl = host.ovl → next.group = host.group → next.admq = host.admq →
          Carried (.pass1 i) host next := by
    intro next active pass oncpu ovl group admq
    obtain ⟨_, _, cpu, overlaps, full, queue⟩ := @Carried.of_cache _ host (.pass1 i)
      { next with pass := host.pass } nofun nofun active rfl oncpu ovl group admq
    exact ⟨active, fun place other => pass place fun same => other (congrArg _ same.symm), cpu,
      overlaps, full, queue⟩
  simp only [FfnHost.act]
  split
  next => exact ends _ rfl (fun _ _ => rfl) rfl rfl rfl rfl
  next =>
    split
    next => exact ends _ rfl (fun _ other => Function.update_of_ne other _ _) rfl rfl rfl rfl
    next => exact ends _ rfl (fun _ other => Function.update_of_ne other _ _) rfl rfl rfl rfl

theorem carried_use (grouped : Bool) (i : Nat) :
    Carried (.use grouped i) host (host.act env query (.use grouped i)).1 := by
  have ends : ∀ next : FfnHost Scores, next.active = host.active → next.pass = host.pass →
      next.oncpu = host.oncpu → next.ovl = host.ovl → next.admq = host.admq →
        Carried (.use grouped i) host next := by
    intro next active pass oncpu ovl admq
    obtain ⟨_, passes, cpu, overlaps, _, queue⟩ := @Carried.of_cache _ host (.use grouped i)
      { next with group := host.group } nofun nofun active pass oncpu ovl rfl admq
    exact ⟨active, passes, cpu, overlaps, fun _ => Or.inr (Nat.le_refl 6), queue⟩
  simp only [FfnHost.act, FfnHost.resolve]
  repeat' split
  all_goals exact ends _ rfl rfl rfl rfl rfl

/-- What every statement but the flush leaves of the variables. -/
theorem carried {act : FfnAct} (other : act ≠ .flush) :
    Carried act host (host.act env query act).1 := by
  cases act with
  | flush => exact absurd rfl other
  | admitOne L e => exact .of_cache (by simp) (by simp) rfl rfl rfl rfl rfl rfl
  | sync => exact .of_cache (by simp) (by simp) rfl rfl rfl rfl rfl rfl
  | setLane lane layer => exact .of_cache (by simp) (by simp) rfl rfl rfl rfl rfl rfl
  | ready =>
      exact ⟨rfl, fun _ _ => rfl, fun _ raised => Or.inl raised,
        ⟨fun _ => Or.inr rfl, fun _ => rfl⟩, fun full => Or.inl full,
        fun full => Or.inl ⟨full, (by simp)⟩⟩
  | pass1 i => exact carried_pass1 i
  | readyNow k =>
      refine ⟨rfl, fun _ _ => rfl, fun place raised => ?_, ⟨Or.inl, fun either =>
        either.resolve_right (by simp)⟩, fun full => Or.inl full, fun full => Or.inl ⟨full, (by simp)⟩⟩
      by_cases same : place = k
      · exact Or.inr (congrArg _ same.symm)
      · have unmoved : Function.update host.oncpu k _ place = true := raised
        rw [Function.update_of_ne same] at unmoved
        exact Or.inl unmoved
  | use grouped i => exact carried_use grouped i
  | launch =>
      simp only [FfnHost.act]
      split
      next => exact .of_cache (by simp) (by simp) rfl rfl rfl rfl rfl rfl
      next =>
        exact ⟨rfl, fun _ _ => rfl, fun _ raised => Or.inl raised, ⟨Or.inl, fun either =>
          either.resolve_right (by simp)⟩, fun _ => Or.inr (Nat.le_refl 6),
          fun full => Or.inl ⟨full, (by simp)⟩⟩
  | admReady =>
      simp only [FfnHost.act]
      split
      next => exact .of_cache (by simp) (by simp) rfl rfl rfl rfl rfl rfl
      next =>
        exact ⟨rfl, fun _ _ => rfl, fun _ raised => Or.inl raised, ⟨Or.inl, fun either =>
          either.resolve_right (by simp)⟩, fun full => Or.inl full, fun _ => Or.inr (Nat.le_refl 7)⟩
  | endLane lane => exact .of_cache (by simp) (by simp) rfl rfl rfl rfl rfl rfl
  | pfOpen => exact .of_cache (by simp) (by simp) rfl rfl rfl rfl rfl rfl
  | prefetch e =>
      simp only [FfnHost.act]
      split
      next => exact .of_cache (by simp) (by simp) rfl rfl rfl rfl rfl rfl
      next => exact .of_cache (by simp) (by simp) rfl rfl rfl rfl rfl rfl
  | pfClose => exact .of_cache (by simp) (by simp) rfl rfl rfl rfl rfl rfl

/-- Only the flush puts statements before the rest. -/
theorem act_puts {act : FfnAct} (other : act ≠ .flush) : (host.act env query act).2 = [] := by
  cases act with
  | flush => exact absurd rfl other
  | pass1 i =>
      simp only [FfnHost.act]
      repeat' split
      all_goals rfl
  | use grouped i =>
      simp only [FfnHost.act, FfnHost.resolve]
      repeat' split
      all_goals rfl
  | launch =>
      simp only [FfnHost.act]
      split
      next => rfl
      next => rfl
  | admReady =>
      simp only [FfnHost.act]
      split
      next => rfl
      next => rfl
  | prefetch e =>
      simp only [FfnHost.act]
      split
      next => rfl
      next => rfl
  | _ => rfl

end Fields

/-! ## One statement -/

section Statements

variable {env : CacheEnv Scores} {host : FfnHost Scores} {query : Nat → Bool}
variable {act : FfnAct} {rest : List FfnAct}

theorem FfnMachine.Sound.advance (shape : Shape host (act :: rest)) (other : act ≠ .flush)
    (sound : HostSound env (host.act env query act).1 rest)
    (ne : (host.act env query act).1.cache.ne = host.cache.ne)
    (queued : Queued (host.act env query act).1 rest) :
    FfnMachine.Sound env ⟨(host.act env query act).1, (host.act env query act).2 ++ rest⟩ := by
  rw [act_puts other, List.nil_append]
  have fields := @carried _ env host query act other
  exact ⟨sound, shape.tail fields.group fields.admq fields.ovl fields.pass fields.oncpu ne
    fields.active, queued⟩

/-- The queue becomes the first statements of its call. -/
theorem FfnMachine.Sound.flush (sound : FfnMachine.Sound env ⟨host, .flush :: rest⟩) :
    FfnMachine.Sound env ⟨(host.act env query .flush).1, (host.act env query .flush).2 ++ rest⟩ := by
  obtain ⟨soundHost, shape, queued⟩ := sound
  have given := shape.ungiven (by decide)
  have serial := shape.unentered (by decide)
  have lowered := hf2Reap_lowered query host.cache
  have flushed : Shape (host.act env query .flush).1 rest := by
    refine shape.tail (fun full => Or.inl full) (fun full => absurd rfl full)
      ⟨Or.inl, fun either => either.resolve_right nofun⟩ (fun _ _ => rfl)
      (fun _ raised => Or.inl raised) lowered.ne_eq rfl
  refine ⟨?_, flushed.admit (fun later member => ?_) given rfl serial host.admq, fun either => ?_⟩
  · refine (soundHost.flush.drop fun _ _ => nofun).of_todo (fun grouped i => ?_) fun launched => ?_
    · exact @mem_admitted rest host.admq (.use grouped i) fun _ _ => nofun
    · exact (@mem_admitted rest host.admq .launch fun _ _ => nofun).mp launched
  · exact FfnAct.rank_pos (shape.behind member).2.1
  · obtain ⟨L, e, listed⟩ := either.resolve_left fun full => full rfl
    have marked : ∃ event, EventMark host.cache host.kernels event := by
      rcases List.mem_append.mp listed with admitted | later
      · obtain ⟨entry, member, _⟩ := List.mem_map.mp admitted
        exact queued (Or.inl (List.ne_nil_of_mem member))
      · exact queued (Or.inr ⟨L, e, List.mem_cons_of_mem _ later⟩)
    obtain ⟨event, mark⟩ := marked
    exact ⟨event, mark.lowered lowered⟩

/-- A statement between the flush and the end of the call queues nothing. -/
theorem FfnMachine.Sound.between (shape : Shape host (act :: rest)) (behind : 2 ≤ act.rank)
    (before : act.rank ≤ 6) (sound : HostSound env (host.act env query act).1 rest)
    (ne : (host.act env query act).1.cache.ne = host.cache.ne) :
    FfnMachine.Sound env ⟨(host.act env query act).1, (host.act env query act).2 ++ rest⟩ := by
  have other : act ≠ .flush := by
    rintro rfl
    exact absurd behind (by decide)
  refine .advance shape other sound ne (.of_rank shape behind before fun full => ?_)
  rcases (carried other).admq full with ⟨queued, _⟩ | late
  · exact queued
  · exact absurd (Nat.le_trans late before) (by decide : ¬ 7 ≤ 6)

/-- One statement of a call keeps the invariant, where what it takes no wait for is settled. -/
theorem FfnMachine.Sound.acted (sound : FfnMachine.Sound env ⟨host, act :: rest⟩)
    (honest : ∀ event, query event = true → event ∈ host.cache.device.ran)
    (suffice : host.WaitsSuffice env query act) :
    FfnMachine.Sound env ⟨(host.act env query act).1, (host.act env query act).2 ++ rest⟩ := by
  obtain ⟨soundHost, shape, queued⟩ := sound
  have marked : host.admq ≠ [] → ∃ event, EventMark host.cache host.kernels event :=
    fun full => queued (Or.inl full)
  cases act with
  | flush => exact .flush ⟨soundHost, shape, queued⟩
  | admitOne L e =>
      obtain ⟨event, mark⟩ := queued (Or.inr ⟨L, e, List.mem_cons_self⟩)
      obtain ⟨next, stands, ne⟩ := soundHost.admitOne shape honest mark suffice
      exact .advance shape (by simp) (next.drop fun _ _ => by simp) ne fun _ => ⟨event, stands⟩
  | sync => exact .between shape (by decide) (by decide) (soundHost.drop fun _ _ => by simp) rfl
  | setLane lane layer =>
      exact .between shape (Nat.le_refl 2) (by decide : 2 ≤ 6)
        ((soundHost.setLane lane layer).drop fun _ _ => by simp) rfl
  | ready =>
      have unpassed := shape.serial (shape.unentered (by decide))
      exact .between shape (by decide) (by decide)
        ((soundHost.ready unpassed (shape.ungiven (by decide))).drop fun _ _ => by simp) rfl
  | pass1 i =>
      exact .between shape (by decide : 2 ≤ 4) (by decide : 4 ≤ 6)
        ((soundHost.pass1 shape honest suffice).drop fun _ _ => by simp) (pass1_ne i)
  | readyNow k =>
      exact .between shape (by decide : 2 ≤ 5) (by decide : 5 ≤ 6)
        ((soundHost.readyNow honest host.L (host.expert k) host.cache.ne _).drop fun _ _ => by simp)
        (moeReadyNow_lowered soundHost.cache honest).ne_eq
  | use grouped i =>
      refine .between shape (by decide : 2 ≤ 6) (Nat.le_refl 6) ?_ (use_ne grouped i)
      cases onCpu : grouped && host.oncpu i with
      | true =>
          simp only [FfnHost.act, onCpu, if_true]
          have raised : host.oncpu i = true := (Bool.and_eq_true _ _ ▸ onCpu).2
          refine soundHost.used fun slot overlaps _ => ?_
          rw [(shape.onCpu i (Or.inr raised)).1] at overlaps
          cases overlaps
      | false =>
          cases overlaps : host.ovl with
          | true => exact soundHost.use_overlap shape overlaps onCpu suffice
          | false => exact soundHost.use_direct shape overlaps honest onCpu suffice
  | launch =>
      refine .between shape (by decide) (by decide) ?_ ?_
      · simp only [FfnHost.act]
        split
        next => exact soundHost.drop fun _ _ => by simp
        next => exact soundHost.launch
      · simp only [FfnHost.act]
        split
        next => rfl
        next => rfl
  | admReady =>
      refine .advance shape (by simp) ?_ ?_ (.of_mark shape (by decide) ?_)
      · simp only [FfnHost.act]
        split
        next => exact soundHost.drop fun _ _ => by simp
        next => exact (soundHost.recordReady _).drop fun _ _ => by simp
      · simp only [FfnHost.act]
        split
        next => rfl
        next => rfl
      · simp only [FfnHost.act]
        split
        next => exact marked
        next => exact fun _ => ⟨_, eventMark_record soundHost.cache⟩
  | endLane lane =>
      refine .advance shape (by simp) ((soundHost.setLane lane none).drop fun _ _ => by simp) rfl
        (.of_mark shape (by decide : 2 ≤ 7) fun full => ?_)
      obtain ⟨event, mark⟩ := marked full
      exact ⟨event, mark.lowered ⟨rfl, rfl, rfl, rfl, rfl, rfl, rfl, rfl, fun _ => Or.inl rfl⟩⟩
  | pfOpen =>
      exact .advance shape (by simp) ((soundHost.pfOpen _).drop fun _ _ => by simp) rfl
        (.of_mark shape (by decide) marked)
  | prefetch e =>
      obtain ⟨next, ne, stands⟩ := soundHost.prefetch shape suffice
      have fields : (host.act env query (.prefetch e)).1.admq = host.admq ∧
          (host.act env query (.prefetch e)).1.kernels = host.kernels := by
        simp only [FfnHost.act]
        split
        next => exact ⟨rfl, rfl⟩
        next => exact ⟨rfl, rfl⟩
      refine .advance shape (by simp) (next.drop fun _ _ => by simp) ne
        (.of_mark shape (by decide : 2 ≤ 8) fun full => ?_)
      rw [fields.1] at full
      obtain ⟨event, mark⟩ := marked full
      rw [fields.2]
      exact ⟨event, stands event mark⟩
  | pfClose =>
      refine .advance shape (by simp) ?_ rfl (.of_mark shape (by decide) marked)
      obtain ⟨cache, off, fetched, overlapping, picked, given⟩ :=
        soundHost.drop fun _ _ => by simp
      exact ⟨cache, off, fetched, overlapping, picked, given⟩

end Statements

/-! ## A call -/

section Entering

variable {low middle next high : Nat} {first second : List FfnAct}

theorem ahead_of_rank {one other : FfnAct} (rank : one.rank ≤ other.rank)
    (apart : one.rank < other.rank ∨ 5 ≤ other.rank) : one.Ahead other := by
  have unlike : ∀ act : FfnAct, act.rank < 5 → other = act → one ≠ act := by
    rintro act early rfl rfl
    rcases apart with before | late
    · exact Nat.lt_irrefl _ before
    · exact Nat.not_le.mpr early late
  refine ⟨rank, ?_, unlike .ready (by decide), fun i => unlike (.pass1 i) (by decide : 4 < 5)⟩
  rintro rfl
  rcases apart with before | late
  · exact Nat.not_lt_zero _ before
  · exact absurd late (by decide)

/-- Statements in order, their ranks within bounds. -/
structure Span (low high : Nat) (acts : List FfnAct) : Prop where
  ahead : acts.Pairwise FfnAct.Ahead
  within : ∀ act ∈ acts, low ≤ act.rank ∧ act.rank ≤ high

theorem Span.append (before : Span low middle first) (behind : Span next high second)
    (lower : low ≤ next) (upper : middle ≤ high) (rank : middle ≤ next)
    (apart : middle < next ∨ 5 ≤ next) : Span low high (first ++ second) := by
  refine ⟨List.pairwise_append.mpr ⟨before.ahead, behind.ahead, fun one inFirst other inSecond => ?_⟩,
    fun act member => ?_⟩
  · have early := (before.within one inFirst).2
    have late := (behind.within other inSecond).1
    refine ahead_of_rank (Nat.le_trans early (Nat.le_trans rank late)) ?_
    rcases apart with strict | plain
    · exact Or.inl (Nat.lt_of_le_of_lt early (Nat.lt_of_lt_of_le strict late))
    · exact Or.inr (Nat.le_trans plain late)
  · rcases List.mem_append.mp member with inFirst | inSecond
    · obtain ⟨above, below⟩ := before.within act inFirst
      exact ⟨above, Nat.le_trans below upper⟩
    · obtain ⟨above, below⟩ := behind.within act inSecond
      exact ⟨Nat.le_trans lower above, below⟩

theorem Span.widen {lower upper : Nat} {acts : List FfnAct} (span : Span low high acts)
    (below : lower ≤ low) (above : high ≤ upper) : Span lower upper acts :=
  ⟨span.ahead, fun act member => ⟨Nat.le_trans below (span.within act member).1,
    Nat.le_trans (span.within act member).2 above⟩⟩

theorem Span.of_rank {acts : List FfnAct} {rank : Nat} (plain : 5 ≤ rank)
    (same : ∀ act ∈ acts, act.rank = rank) : Span rank rank acts := by
  refine ⟨List.pairwise_iff_forall_sublist.mpr fun {one other} sub => ?_, fun act member => ?_⟩
  · have first := same one (sub.subset List.mem_cons_self)
    have second := same other (sub.subset (List.mem_cons_of_mem _ List.mem_cons_self))
    exact ahead_of_rank (Nat.le_of_eq (first.trans second.symm)) (Or.inr (second.symm ▸ plain))
  · rw [same act member]
    exact ⟨Nat.le_refl rank, Nat.le_refl rank⟩

/-- The statements of a MID, by what it has decided. -/
def midActs (lane : Nat) (pinned : Option Nat) (ovl grp onCpu fetches : Bool) (places : List Nat)
    (ne : Nat) : List FfnAct :=
  [.flush, .sync, .setLane lane pinned] ++
  (if ovl then .ready :: places.map .pass1 else []) ++
  (if grp then
    (if onCpu then places.map .readyNow else []) ++ places.map (.use true) ++ [.launch] ++
      (if onCpu then [.admReady] else [])
  else
    places.flatMap fun i => [.use false i, .launch]) ++
  [.endLane lane] ++
  (if fetches then [.pfOpen] ++ (List.range ne).map .prefetch ++ [.pfClose] else [])

theorem layerActs_eq (ffn : FfnEnv) (slots ne : Nat) (layer : FfnLayer) :
    ∃ pinned ovl grp onCpu fetches, ffn.layerActs slots ne layer =
      midActs ffn.lane pinned ovl grp onCpu fetches
        (List.range ((List.range ne).filter layer.routed).length) ne ∧
        (ovl = true → onCpu = false) ∧ (fetches = true → ovl = true) := by
  refine ⟨_, _, _, _, _, rfl, fun overlaps => ?_, fun fetches => ?_⟩
  · simp only [Bool.and_eq_true, Bool.not_eq_true'] at overlaps
    exact overlaps.1.1.2
  · rw [Bool.and_eq_true, Bool.and_eq_true, Bool.and_eq_true, Bool.and_eq_true] at fetches
    exact fetches.1.1.1.1

section Mids

variable {lane ne i : Nat} {pinned : Option Nat} {ovl grp onCpu fetches grouped : Bool}
variable {places : List Nat}

/-- The resolving of an overlap, no place twice. -/
theorem span_passes (distinct : places.Nodup) :
    Span 3 4 (if ovl then .ready :: places.map .pass1 else []) := by
  refine ⟨?_, fun act member => ?_⟩
  · split
    next =>
      refine List.pairwise_cons.mpr ⟨fun act member => ?_, List.pairwise_map.mpr ?_⟩
      · obtain ⟨place, _, rfl⟩ := List.mem_map.mp member
        exact ahead_of_rank (by decide : 3 ≤ 4) (Or.inl (by decide : 3 < 4))
      · refine distinct.imp fun {one other} apart => ⟨Nat.le_refl 4, (by simp), (by simp), ?_⟩
        rintro place ⟨⟩ ⟨⟩
        exact apart rfl
    next => exact List.Pairwise.nil
  · obtain ⟨_, listed⟩ := List.mem_ite_nil_right.mp member
    rcases List.mem_cons.mp listed with rfl | passed
    · exact ⟨Nat.le_refl 3, by decide⟩
    · obtain ⟨place, _, rfl⟩ := List.mem_map.mp passed
      exact ⟨(by decide : 3 ≤ 4), Nat.le_refl 4⟩

/-- The tensors of the experts, in one group or each for itself. -/
theorem span_uses : Span 5 7 (if grp then
    (if onCpu then places.map .readyNow else []) ++ places.map (.use true) ++ [.launch] ++
      (if onCpu then [.admReady] else [])
  else
    places.flatMap fun i => [.use false i, .launch]) := by
  split
  next =>
    have ready : Span 5 5 (if onCpu then places.map .readyNow else []) := by
      refine .of_rank (Nat.le_refl 5) fun act member => ?_
      obtain ⟨place, _, rfl⟩ := List.mem_map.mp (List.mem_ite_nil_right.mp member).2
      rfl
    have used : Span 6 6 (places.map (.use true)) := by
      refine .of_rank (by decide) fun act member => ?_
      obtain ⟨place, _, rfl⟩ := List.mem_map.mp member
      rfl
    have launched : Span 6 6 [.launch] := .of_rank (by decide) fun act member => by
      rw [List.mem_singleton.mp member]
      rfl
    have admits : Span 7 7 (if onCpu then [.admReady] else []) := by
      refine .of_rank (by decide) fun act member => ?_
      rw [List.mem_singleton.mp (List.mem_ite_nil_right.mp member).2]
      rfl
    have given := ready.append used (by decide) (by decide) (by decide) (Or.inr (by decide))
    have grouped := given.append launched (by decide) (Nat.le_refl 6) (by decide)
      (Or.inr (by decide))
    exact grouped.append admits (by decide) (by decide) (by decide) (Or.inr (by decide))
  next =>
    refine (Span.of_rank (by decide : 5 ≤ 6) fun act member => ?_).widen (by decide) (by decide)
    obtain ⟨place, _, listed⟩ := List.mem_flatMap.mp member
    simp only [List.mem_cons, List.not_mem_nil, or_false] at listed
    rcases listed with rfl | rfl
    · rfl
    · rfl

theorem midActs_ahead (distinct : places.Nodup) :
    (midActs lane pinned ovl grp onCpu fetches places ne).Pairwise FfnAct.Ahead := by
  have start : Span 0 2 [.flush, .sync, .setLane lane pinned] := by
    refine ⟨?_, fun act member => ?_⟩
    · simp [FfnAct.Ahead, FfnAct.rank]
    · simp only [List.mem_cons, List.not_mem_nil, or_false] at member
      rcases member with rfl | rfl | rfl
      · exact ⟨Nat.le_refl 0, Nat.zero_le 2⟩
      · exact ⟨Nat.zero_le 2, Nat.le_refl 2⟩
      · exact ⟨Nat.zero_le 2, Nat.le_refl 2⟩
  have closes : Span 7 7 [.endLane lane] := .of_rank (by decide) fun act member => by
    rw [List.mem_singleton.mp member]
    rfl
  have prefetches : Span 8 8 (if fetches then
      [.pfOpen] ++ (List.range ne).map .prefetch ++ [.pfClose] else []) := by
    refine .of_rank (by decide) fun act member => ?_
    have listed := (List.mem_ite_nil_right.mp member).2
    simp only [List.mem_append, List.mem_singleton, List.mem_map] at listed
    rcases listed with (rfl | ⟨e, _, rfl⟩) | rfl
    · rfl
    · rfl
    · rfl
  have passes := @span_passes ovl places distinct
  have uses := @span_uses grp onCpu places
  have early := start.append passes (by decide) (by decide) (by decide) (Or.inl (by decide))
  have resolved := early.append uses (by decide) (by decide) (by decide) (Or.inl (by decide))
  have closed := resolved.append closes (by decide) (by decide) (by decide) (Or.inr (by decide))
  exact (closed.append prefetches (by decide) (by decide) (by decide) (Or.inl (by decide))).ahead

theorem mem_midActs_use :
    .use grouped i ∈ midActs lane pinned ovl grp onCpu fetches places ne ↔
      i ∈ places ∧ grouped = grp := by
  cases grp with
  | true => simp [midActs]
  | false => simp [midActs]

theorem mem_midActs_pass1 :
    .pass1 i ∈ midActs lane pinned ovl grp onCpu fetches places ne ↔ ovl = true ∧ i ∈ places := by
  cases grp with
  | true => simp [midActs]
  | false => simp [midActs]

theorem mem_midActs_ready :
    .ready ∈ midActs lane pinned ovl grp onCpu fetches places ne ↔ ovl = true := by
  cases grp with
  | true => simp [midActs]
  | false => simp [midActs]

theorem notMem_midActs_admitOne {L e : Nat} :
    .admitOne L e ∉ midActs lane pinned ovl grp onCpu fetches places ne := by
  cases grp with
  | true => simp [midActs]
  | false => simp [midActs]

theorem mem_midActs_prefetch {e : Nat} :
    .prefetch e ∈ midActs lane pinned ovl grp onCpu fetches places ne ↔ fetches = true ∧ e < ne := by
  cases grp with
  | true => simp [midActs]
  | false => simp [midActs]

theorem midActs_onCpu {k : Nat}
    (listed : .readyNow k ∈ midActs lane pinned ovl grp onCpu fetches places ne) :
    onCpu = true := by
  cases grp with
  | true =>
      simp [midActs] at listed
      exact listed.1
  | false => simp [midActs] at listed

end Mids

variable {env : CacheEnv Scores} {host : FfnHost Scores}

/-- A call begins with its flush, and passes, uses and fetches no other expert. -/
theorem Shape.enter (ffn : FfnEnv) (layer : FfnLayer) :
    Shape (host.enter layer) (ffn.layerActs host.cache.slots host.cache.ne layer) := by
  obtain ⟨pinned, ovl, grp, onCpu, fetches, same, serial, overlaps⟩ :=
    layerActs_eq ffn host.cache.slots host.cache.ne layer
  rw [same]
  have ready : ovl = true → (host.enter layer).ovl = true ∨ .ready ∈ midActs ffn.lane pinned ovl grp
      onCpu fetches (List.range ((List.range host.cache.ne).filter layer.routed).length)
        host.cache.ne := fun entered => Or.inr (mem_midActs_ready.mpr entered)
  refine ⟨midActs_ahead List.nodup_range, fun full => absurd rfl full,
    fun _ => Or.inl ⟨_, rfl⟩, nofun, fun i listed => ?_, fun e listed => ?_, fun grouped i listed => ?_,
    fun e member => ?_, List.nodup_range.filter _, fun _ _ => rfl, fun k reached => ?_⟩
  · obtain ⟨entered, inside⟩ := mem_midActs_pass1.mp listed
    exact ⟨ready entered, ⟨grp, mem_midActs_use.mpr ⟨inside, rfl⟩⟩, rfl⟩
  · obtain ⟨fetched, inside⟩ := mem_midActs_prefetch.mp listed
    exact ⟨ready (overlaps fetched), inside⟩
  · exact List.mem_range.mp (mem_midActs_use.mp listed).1
  · exact List.mem_range.mp (List.mem_filter.mp member).1
  · have onCpu := midActs_onCpu (reached.resolve_right nofun)
    refine ⟨rfl, fun entered => ?_⟩
    rw [serial (mem_midActs_ready.mp entered)] at onCpu
    cases onCpu

theorem HostSound.enter (sound : HostSound env host []) (layer : FfnLayer) (todo : List FfnAct) :
    HostSound env (host.enter layer) todo := by
  obtain ⟨cache, off, fetched, _, _, _⟩ := sound
  refine ⟨cache, off, fun L e slot inside has known => ?_, nofun, nofun,
    fun _ _ member => absurd member List.not_mem_nil⟩
  rcases fetched L e slot inside has known with raised | settled | covered | ⟨_, _, listed, _⟩
  · exact Or.inl raised
  · exact Or.inr (Or.inl settled)
  · exact Or.inr (Or.inr (Or.inl covered))
  · exact absurd listed List.not_mem_nil

theorem FfnMachine.Sound.enter (sound : FfnMachine.Sound env ⟨host, []⟩) (ffn : FfnEnv)
    (layer : FfnLayer) :
    FfnMachine.Sound env
      ⟨host.enter layer, ffn.layerActs host.cache.slots host.cache.ne layer⟩ := by
  refine ⟨sound.host.enter layer _, Shape.enter ffn layer, ?_⟩
  rintro (full | ⟨L, e, listed⟩)
  · exact sound.queued (Or.inl full)
  · obtain ⟨pinned, ovl, grp, onCpu, fetches, same, _⟩ :=
      layerActs_eq ffn host.cache.slots host.cache.ne layer
    rw [same] at listed
    exact absurd listed notMem_midActs_admitOne

end Entering

/-! ## The device -/

section Running

variable {env : CacheEnv Scores} {kernels : List Kernel} {cache : ExpertCache Scores}
variable {device : ExpertDevice} {kernel : Kernel} {index : Nat}

theorem KernelSound.run (sound : KernelSound env device kernel) (fresh : index ∉ device.ran) :
    KernelSound env (device.run index) kernel :=
  ⟨sound.present, fun c before copy => (sound.behind c before copy).run fresh,
    fun c later copy => (sound.ahead c later copy).run fresh, sound.reads⟩

theorem CacheSound.run (sound : CacheSound env kernels none cache)
    (ready : cache.device.runnable index = true) :
    CacheSound env kernels none { cache with device := cache.device.run index } := by
  have fresh := runnable_fresh ready
  refine ⟨sound.ordered.run ready, fun slot first second before copyFirst copySecond => ?_,
    fun kernel member => (sound.kernels kernel member).run fresh, sound.owner, sound.mapped,
    fun key slot known array fills => ?_, fun slot away raised => ?_, fun slot away lowered => ?_⟩
  · exact (sound.copies slot first second before copyFirst copySecond).run fresh
  · obtain ⟨c, operation, latest, work⟩ := sound.content key slot known array fills
    exact ⟨c, operation, ⟨latest.present, latest.fits, latest.last⟩, work⟩
  · obtain ⟨event, recorded, covered⟩ := sound.pending slot away raised
    exact ⟨event, recorded, fun c copy => (covered c copy).run index⟩
  · rcases sound.placed slot away lowered with compute | overlap
    · exact Or.inl fun c copy => (compute c copy).run index
    · exact Or.inr fun c copy => (overlap c copy).run index

theorem kept_run (cache : ExpertCache Scores) (index : Nat) :
    Kept none cache { cache with device := cache.device.run index } :=
  ⟨rfl, rfl, fun _ _ _ => Iff.rfl, fun _ _ => Or.inl rfl,
    fun _ _ landed c copy => List.mem_append_left _ (landed c copy),
    fun _ _ _ settled c copy => (settled c copy).run index,
    fun _ _ _ covered c copy => (covered c copy).run index, fun _ _ settled => settled.run index⟩

theorem FfnMachine.Sound.run {machine : FfnMachine Scores} (sound : machine.Sound env)
    (ready : machine.host.cache.device.runnable index = true) :
    FfnMachine.Sound env { machine with
      host := { machine.host with
        cache := { machine.host.cache with device := machine.host.cache.device.run index } } } := by
  obtain ⟨host, ⟨ahead, given, queued, late, passing, fetching, places, experts, distinct, serial,
    onCpu⟩, marked⟩ := sound
  refine ⟨host.kept_none (host.cache.run ready) (kept_run machine.host.cache index), ⟨ahead, given,
    queued, late, passing, fetching, places, experts, distinct, serial, onCpu⟩, fun either => ?_⟩
  obtain ⟨event, recorded, present, quiet, behind⟩ := marked either
  exact ⟨event, recorded, present, quiet, behind⟩

theorem copyInto_of_into {slot : Nat} {array : SlotArray} {operation : Issued CudaStream ExpertWork}
    (present : device.log[index]? = some operation)
    (fits : operation.work.any (ExpertWork.into slot array) = true) : CopyInto device slot index := by
  cases work : operation.work with
  | none =>
      rw [work] at fits
      cases fits
  | some done =>
      cases done with
      | copy place part key =>
          rw [work, Option.any_some, ExpertWork.into, decide_eq_true_eq] at fits
          obtain ⟨rfl, rfl⟩ := fits
          exact ⟨operation, part, key, present, work⟩

/-- A kernel that is about to run finds its own expert. -/
theorem CacheSound.held (sound : CacheSound env kernels none cache) (member : kernel ∈ kernels)
    (ready : cache.device.runnable kernel.ticket = true) {array : SlotArray}
    (fills : env.fills array = true) :
    cache.device.held (ExpertWork.into kernel.slot array) =
      some (.copy kernel.slot array kernel.key) := by
  have fresh := runnable_fresh ready
  obtain ⟨_, behind, ahead, reads⟩ := sound.kernels kernel member
  obtain ⟨c, before, operation, present, work, last⟩ := reads array fills
  have copy : CopyInto cache.device kernel.slot c := ⟨operation, array, _, present, work⟩
  have ran : c ∈ cache.device.ran := by
    have now : kernel.ticket ∈ (cache.device.run kernel.ticket).ran :=
      List.mem_append_right _ (List.mem_singleton_self _)
    have sooner := ((behind c before copy).run fresh).ranBefore (sound.ordered.run ready) now
    rcases List.mem_append.mp sooner.first_mem with done | same
    · exact done
    · exact absurd (List.mem_singleton.mp same) (Nat.ne_of_lt before)
  refine held_of_last sound.ordered ran present work (decide_eq_true ⟨rfl, rfl⟩)
    fun j done other there fits apart => ?_
  have copied : CopyInto cache.device kernel.slot j := copyInto_of_into there fits
  rcases Nat.lt_trichotomy j kernel.ticket with early | same | late
  · rcases Nat.lt_trichotomy j c with first | same | between
    · exact (sound.copies kernel.slot j c first copied copy).ranBefore sound.ordered ran
    · exact absurd same apart
    · rw [last j other between early there] at fits
      cases fits
  · exact absurd (same ▸ done) fresh
  · exact absurd ((ahead j late copied).ranBefore sound.ordered done).first_mem fresh

end Running

/-! ## Runs -/

section Runs

variable {env : CacheEnv Scores}

theorem FfnMachine.Sound.opened (env : CacheEnv Scores) (outcome : ExpertCache.InitOutcome Scores) :
    FfnMachine.Sound env ⟨FfnHost.opened env outcome, []⟩ := by
  have nothing : ∀ slot c, ¬ CopyInto (Device.empty : ExpertDevice) slot c := by
    rintro slot c ⟨_, _, _, present, _⟩
    cases present
  have cache : CacheSound env [] none (FfnHost.opened env outcome).cache :=
    ⟨ordered_empty, fun slot first second _ copy => absurd copy (nothing slot first),
      fun _ member => absurd member List.not_mem_nil, nofun, nofun, nofun, nofun,
      fun slot _ _ => Or.inl fun c copy => absurd copy (nothing slot c)⟩
  refine ⟨⟨cache, fun _ _ => rfl, nofun, nofun, nofun, nofun⟩, ⟨List.Pairwise.nil,
    fun full => absurd rfl full, fun full => absurd rfl full, nofun, nofun, nofun, nofun, nofun,
    List.nodup_nil, fun _ _ => rfl, ?_⟩, ?_⟩
  · rintro k (listed | raised)
    · exact absurd listed List.not_mem_nil
    · cases raised
  · rintro (full | ⟨L, e, listed⟩)
    · exact absurd rfl full
    · exact absurd listed List.not_mem_nil

theorem FfnMachine.Sound.step {machine : FfnMachine Scores} (sound : machine.Sound env)
    (ffn : FfnEnv) (action : FfnAction) (suffice : machine.WaitsSuffice env action) :
    (machine.step env ffn action).Sound env := by
  obtain ⟨host, todo⟩ := machine
  cases action with
  | device index =>
      simp only [FfnMachine.step]
      by_cases ready : host.cache.device.runnable index = true
      · rw [if_pos ready]
        exact sound.run ready
      · rw [if_neg ready]
        exact sound
  | layer layer =>
      cases todo with
      | nil => exact sound.enter ffn layer
      | cons act rest => exact sound
  | act query =>
      have honest : ∀ event, FfnMachine.query ⟨host, todo⟩ query event = true →
          event ∈ host.cache.device.ran := by
        intro event answered
        rw [FfnMachine.query, Bool.and_eq_true, decide_eq_true_eq] at answered
        exact answered.2
      cases todo with
      | nil => exact sound
      | cons act rest =>
          have next := sound.acted honest suffice
          cases act with
          | sync =>
              simp only [FfnMachine.step]
              split
              next => exact next
              next => exact sound
          | _ => exact next

/-- Where every branch without a wait has nothing to wait for, each kernel that may run finds what
was copied for its expert, in whatever order the streams make progress. -/
theorem kernels_readOwn (env : CacheEnv Scores) (ffn : FfnEnv)
    (outcome : ExpertCache.InitOutcome Scores) (actions : List FfnAction)
    (suffice : GuardedRun (FfnMachine.step env ffn) (FfnMachine.WaitsSuffice env) actions
      ⟨FfnHost.opened env outcome, []⟩) :
    let machine := serveAll (FfnMachine.step env ffn) actions ⟨FfnHost.opened env outcome, []⟩
    ∀ index, machine.host.cache.device.runnable index = true → machine.host.ReadsOwn env index := by
  intro machine index ready kernel member same array fills
  have sound : machine.Sound env := suffice.preserves
    (fun action _ suffice sound => sound.step ffn action suffice)
    (FfnMachine.Sound.opened env outcome)
  exact sound.host.cache.held member (same ▸ ready) fills

end Runs

/-! A decode step queues the expert it missed.  The prefill behind it finds the slot mapped, and only
the overlap stream waits for the copy. -/

def fortySlots : ExpertCache.InitOutcome Unit where
  slots := 40
  ne := 2
  events := fun _ => true
  scores := none
  evGuard := 480
  dmapOn := false

/-- A model of one layer. -/
def oneLayer : FfnEnv where
  overlap := true
  overlapPrefill := true
  prefetchPrefill := true
  grouped := true
  groupable := true
  lane := 0
  nl := 1

/-- A MID of the layer whose tokens are all routed to expert 0. -/
def expertZero (nTok : Nat) (cpu : Bool) : FfnLayer where
  L := 0
  nTok
  routed := fun e => e == 0
  cpu

/-- The decode step to its end, the prefill up to its sync, the record the sync asks for, the rest
of the prefill, and the record in front of the overlap. -/
def admissionOverlap : List FfnAction :=
  .layer (expertZero 1 true) :: List.replicate 8 (.act fun _ => true) ++
    .layer (expertZero 64 false) :: List.replicate 2 (.act fun _ => true) ++
      .device 0 :: List.replicate 7 (.act fun _ => true) ++ [.device 7]

/-- The kernel may run although no copy has. -/
theorem admissionOverlap_reads_early :
    ¬ ∀ (env : CacheEnv Unit) (ffn : FfnEnv) (outcome : ExpertCache.InitOutcome Unit)
      (actions : List FfnAction),
      let machine := serveAll (FfnMachine.step env ffn) actions ⟨FfnHost.opened env outcome, []⟩
      ∀ index, machine.host.cache.device.runnable index = true →
        machine.host.ReadsOwn env index := by
  intro claim
  have reads := claim plainEnv oneLayer fortySlots admissionOverlap 10 (rfl)
    ⟨10, 0, 0⟩ (List.mem_singleton.mpr rfl) rfl .gupCodes rfl
  exact absurd reads (by decide)

/-- A miss of pass 1, awaited by its use, and the device up to the kernel. -/
def awaitedMiss : List FfnAction :=
  .layer (expertZero 1 false) :: List.replicate 7 (.act fun _ => true) ++ (List.range 8).map .device

theorem kernels_readOwn_awaitedMiss :
    let machine := serveAll (FfnMachine.step plainEnv oneLayer) awaitedMiss
      ⟨FfnHost.opened plainEnv fortySlots, []⟩
    machine.host.cache.device.runnable 8 = true ∧ machine.host.ReadsOwn plainEnv 8 := by
  have ready : (serveAll (FfnMachine.step plainEnv oneLayer) awaitedMiss
      ⟨FfnHost.opened plainEnv fortySlots, []⟩).host.cache.device.runnable 8 = true := by
    rfl
  have suffice : GuardedRun (FfnMachine.step plainEnv oneLayer) (FfnMachine.WaitsSuffice plainEnv)
      awaitedMiss ⟨FfnHost.opened plainEnv fortySlots, []⟩ := by
    refine ⟨trivial, trivial, trivial, trivial, trivial, fun _ place picked passed => ?_,
      fun _ picked passed plain => ?_, trivial, trivial, trivial, trivial, trivial, trivial, trivial,
      trivial, trivial, trivial⟩
    · have fresh : none = some picked := passed
      cases fresh
    · have copied : some { slot := 0, copied := true } = some picked := passed
      rw [← Option.some.inj copied] at plain
      cases plain
  exact ⟨ready, kernels_readOwn plainEnv oneLayer fortySlots awaitedMiss suffice 8 ready⟩

end KairosEngine.Cuda
