import KairosEngine.Library.Directory
import KairosEngine.Library.Loop
import KairosEngine.Cuda.ExpertCache

/-!
# The expert directory over runs

`g_ec_map` and `g_ec_key` stay inverse to each other until a miss evicts a key and fails to
stage its successor: `moe_resident` unmaps the old key and leaves it as the slot's owner.
-/

namespace KairosEngine.Cuda

open KairosEngine.Library

/-- The statement leaves the directory alone. -/
def HostAct.aside : HostAct → Bool
  | .unmap _ => false
  | .disown _ => false
  | .own _ _ => false
  | _ => true

namespace ExpertCache

variable {Scores : Type} (env : CacheEnv Scores)

def DirectoryConsistent (cache : ExpertCache Scores) : Prop := Inverse cache.map cache.key

/-- Same map, same owners. -/
def SameDirectory (cache other : ExpertCache Scores) : Prop :=
  cache.map = other.map ∧ cache.key = other.key

variable {env} {cache other : ExpertCache Scores}

theorem SameDirectory.consistent_iff (same : SameDirectory cache other) :
    cache.DirectoryConsistent ↔ other.DirectoryConsistent := by
  rw [DirectoryConsistent, DirectoryConsistent, same.1, same.2]

theorem SameDirectory.trans {third : ExpertCache Scores} (first : SameDirectory cache other)
    (second : SameDirectory other third) : SameDirectory cache third :=
  ⟨first.1.trans second.1, first.2.trans second.2⟩

/-! ## What a statement does to the directory -/

theorem perform_aside (cache : ExpertCache Scores) (act : HostAct) (aside : act.aside = true) :
    SameDirectory (cache.perform env act) cache := by
  cases act with
  | invalidate slot behind =>
      simp only [perform, hf2Invalidate]
      split
      next => exact ⟨rfl, rfl⟩
      next => exact ⟨rfl, rfl⟩
  | unmap slot => cases aside
  | await slot stream =>
      simp only [perform]
      split
      next => exact ⟨rfl, rfl⟩
      next => exact ⟨rfl, rfl⟩
  | awaitReady => exact ⟨rfl, rfl⟩
  | clearPend slot => exact ⟨rfl, rfl⟩
  | copy stream slot array key => exact ⟨rfl, rfl⟩
  | disown slot => cases aside
  | own slot key => cases aside
  | recordFilled slot stream =>
      simp only [perform]
      split
      next => exact ⟨rfl, rfl⟩
      next => exact ⟨rfl, rfl⟩
  | setPend slot =>
      simp only [perform]
      split
      next => exact ⟨rfl, rfl⟩
      next => exact ⟨rfl, rfl⟩
  | issued slot key =>
      simp only [perform, hf2Issued, hf2UnpubAdd]
      repeat' split
      all_goals exact ⟨rfl, rfl⟩
  | stamp slot => exact ⟨rfl, rfl⟩
  | touch key => exact ⟨rfl, rfl⟩
  | ringPut index slot => exact ⟨rfl, rfl⟩

theorem performAll_aside {acts : List HostAct} (aside : ∀ act ∈ acts, act.aside = true)
    (cache : ExpertCache Scores) : SameDirectory (acts.foldl (perform env) cache) cache := by
  induction acts generalizing cache with
  | nil => exact ⟨rfl, rfl⟩
  | cons act rest inductionHypothesis =>
      rw [List.foldl_cons]
      exact (inductionHypothesis (fun other member => aside other (List.mem_cons_of_mem _ member))
        _).trans (perform_aside cache act (aside act List.mem_cons_self))

theorem perform_unmap (cache : ExpertCache Scores) (slot : Nat) :
    (cache.perform env (.unmap slot)).map = unmapOwner cache.map cache.key slot ∧
      (cache.perform env (.unmap slot)).key = cache.key := by
  simp only [perform, unmapOwner]
  cases cache.key slot with
  | none => exact ⟨rfl, rfl⟩
  | some old => exact ⟨rfl, rfl⟩

theorem tensorCopies_aside (stream : CudaStream) (slot key : Nat) (codes scales : SlotArray)
    (scaled : Bool) (staged : Staged) :
    ∀ act ∈ tensorCopies stream slot key codes scales scaled staged, act.aside = true := by
  intro act member
  cases staged with
  | ok =>
      rw [tensorCopies] at member
      rcases List.mem_cons.mp member with rfl | later
      · rfl
      · split at later
        next =>
          rw [List.mem_singleton.mp later]
          rfl
        next => exact absurd later List.not_mem_nil
  | codesFailed => exact absurd member List.not_mem_nil
  | scalesFailed =>
      rw [List.mem_singleton.mp member]
      rfl

theorem stageCopies_aside (stream : CudaStream) (slot key : Nat) (gup down : Staged) :
    ∀ act ∈ stageCopies env stream slot key gup down, act.aside = true := by
  intro act member
  rw [stageCopies] at member
  rcases List.mem_append.mp member with first | second
  · exact tensorCopies_aside _ _ _ _ _ _ _ act first
  · split at second
    next => exact tensorCopies_aside _ _ _ _ _ _ _ act second
    next => exact absurd second List.not_mem_nil

/-! ## The calls -/

theorem moeReadyNow_directory (query : Nat → Bool) (cache : ExpertCache Scores) (L e NE : Nat) :
    SameDirectory (cache.moeReadyNow env query L e NE).2 cache := by
  obtain ⟨_, _, _, changed⟩ := moeReadyNow_changes env query cache L e NE
  rw [changed]
  exact ⟨rfl, rfl⟩

theorem hf2Reap_directory (query : Nat → Bool) (cache : ExpertCache Scores) :
    SameDirectory (cache.hf2Reap query) cache := by
  obtain ⟨_, _, changed⟩ := hf2Reap_changes query cache
  rw [changed]
  exact ⟨rfl, rfl⟩

theorem scanRing_directory (query : Nat → Bool) (indices : List Nat) (cache : ExpertCache Scores) :
    SameDirectory (indices.foldl (scanRing query) (cache, 0, none)).1 cache := by
  obtain ⟨_, _, changed⟩ := scanRing_changes query indices (cache, 0, none)
  rw [changed]
  exact ⟨rfl, rfl⟩

/-- Up to the staging, a miss takes the victim from its owner in the map only. -/
theorem performAll_unmap {quiet : List HostAct} (aside : ∀ act ∈ quiet, act.aside = true)
    (cache : ExpertCache Scores) (victim : Nat) (behind : Option CudaStream) :
    let reached := (.invalidate victim behind :: .unmap victim :: quiet).foldl (perform env) cache
    reached.map = unmapOwner cache.map cache.key victim ∧ reached.key = cache.key := by
  have invalidated := @perform_aside _ env cache (.invalidate victim behind) rfl
  have unmapped := @perform_unmap _ env (cache.perform env (.invalidate victim behind)) victim
  have after := @performAll_aside _ env _ aside
    ((cache.perform env (.invalidate victim behind)).perform env (.unmap victim))
  rw [invalidated.1, invalidated.2] at unmapped
  exact ⟨after.1.trans unmapped.1, after.2.trans unmapped.2⟩

/-- The statements that make a key the owner of a slot. -/
theorem performAll_own {before after : List HostAct} (asideBefore : ∀ act ∈ before, act.aside = true)
    (asideAfter : ∀ act ∈ after, act.aside = true) (cache : ExpertCache Scores) (slot key : Nat) :
    let reached := (before ++ .own slot key :: after).foldl (perform env) cache
    reached.map = Function.update cache.map key (some slot) ∧
      reached.key = Function.update cache.key slot (some key) := by
  simp only [List.foldl_append, List.foldl_cons]
  have first := @performAll_aside _ env _ asideBefore cache
  have last := @performAll_aside _ env _ asideAfter
    ((before.foldl (perform env) cache).perform env (.own slot key))
  rw [last.1, last.2, perform, first.1, first.2]
  exact ⟨rfl, rfl⟩

theorem aside_ite {condition : Prop} [Decidable condition] {acts : List HostAct}
    (aside : ∀ act ∈ acts, act.aside = true) :
    ∀ act ∈ (if condition then acts else []), act.aside = true := by
  split
  next => exact aside
  next => exact fun _ member => absurd member List.not_mem_nil

theorem aside_append {first second : List HostAct} (asideFirst : ∀ act ∈ first, act.aside = true)
    (asideSecond : ∀ act ∈ second, act.aside = true) :
    ∀ act ∈ first ++ second, act.aside = true := by
  intro act member
  rcases List.mem_append.mp member with early | late
  · exact asideFirst act early
  · exact asideSecond act late

/-- A miss that stages its key hands the victim over; one that does not leaves the owner. -/
theorem moeResident_miss (query : Nat → Bool) (cache : ExpertCache Scores) (L e NE : Nat)
    (st : CudaStream) {gup down : Staged} (on : cache.slots ≠ 0)
    (miss : cache.map (L * NE + e) = none) :
    let victim := cache.moeEvVictim env
    let after := (cache.moeResident env query L e NE st gup down).foldl (perform env) cache
    if gup = .ok ∧ down = .ok then
      after.map = Function.update (unmapOwner cache.map cache.key victim) (L * NE + e)
          (some victim) ∧
        after.key = Function.update cache.key victim (some (L * NE + e))
    else
      after.map = unmapOwner cache.map cache.key victim ∧ after.key = cache.key := by
  simp only [moeResident, if_neg on, miss, List.cons_append, List.nil_append]
  generalize cache.moeEvVictim env = victim
  have quiet : ∀ act ∈ (if cache.pend victim = true then
      [HostAct.await victim st, .clearPend victim] else []) ++
        stageCopies env st victim (L * NE + e) gup down, act.aside = true :=
    aside_append (aside_ite (by simp [HostAct.aside])) (stageCopies_aside _ _ _ _ _)
  have evicted := @performAll_unmap _ env _ quiet cache victim
    (if st = .compute then none else some st)
  by_cases staged : gup = .ok ∧ down = .ok
  · rw [if_pos staged, if_pos staged]
    have owned := @performAll_own _ env []
      ((if cache.dmapOn = true then [HostAct.recordFilled victim st, .issued victim (L * NE + e)]
        else []) ++ [.stamp victim, .touch (L * NE + e)])
      (fun _ member => absurd member List.not_mem_nil)
      (aside_append (aside_ite (by simp [HostAct.aside])) (by simp [HostAct.aside]))
      ((.invalidate victim (if st = .compute then none else some st) :: .unmap victim ::
        ((if cache.pend victim = true then [HostAct.await victim st, .clearPend victim] else []) ++
          stageCopies env st victim (L * NE + e) gup down)).foldl (perform env) cache)
      victim (L * NE + e)
    rw [evicted.1, evicted.2, List.nil_append, ← List.foldl_append] at owned
    simpa only [List.cons_append, List.append_assoc] using owned
  · rw [if_neg staged, if_neg staged, List.append_nil]
    exact evicted

theorem moeAdmitAsync_directory (query : Nat → Bool) {cache : ExpertCache Scores} (L e NE : Nat)
    (gup down : Staged) (consistent : cache.DirectoryConsistent) :
    let entered := cache.moeAdmitAsync env query L e NE gup down
    (entered.2.foldl (perform env) entered.1).DirectoryConsistent := by
  simp only [moeAdmitAsync]
  by_cases idle : cache.slots = 0 ∨ (cache.map (L * NE + e)).isSome = true ∨ env.admitCap = 0
  · rw [if_pos idle]
    exact consistent
  · rw [if_neg idle]
    have absent : cache.map (L * NE + e) = none := by
      simp only [not_or, Bool.not_eq_true, Option.isSome_eq_false_iff, Option.isNone_iff_eq_none]
        at idle
      exact idle.2.1
    have scanned := scanRing_directory query (List.range env.admitCap) cache
    generalize (List.range env.admitCap).foldl (scanRing query) (cache, 0, none) = result
      at scanned ⊢
    obtain ⟨scan, inflight, free⟩ := result
    have reaped := (hf2Reap_directory query scan).trans scanned
    have reapedConsistent := reaped.consistent_iff.mpr consistent
    cases free with
    | none => exact reapedConsistent
    | some index =>
        simp only
        by_cases full : env.admitCap ≤ inflight
        · rw [if_pos full]
          exact reapedConsistent
        · rw [if_neg full]
          rw [← reaped.1] at absent
          generalize scan.hf2Reap query = reaped at reapedConsistent absent
          simp only [List.cons_append, List.nil_append]
          generalize reaped.moeEvVictim env = victim
          have quiet : ∀ act ∈ [.awaitReady] ++ ((if reaped.pend victim = true then
              [HostAct.await victim .admission] else []) ++
                stageCopies env .admission victim (L * NE + e) gup down), act.aside = true :=
            aside_append (by simp [HostAct.aside])
              (aside_append (aside_ite (by simp [HostAct.aside])) (stageCopies_aside _ _ _ _ _))
          have evicted := @performAll_unmap _ env _ quiet reaped victim (some .admission)
          simp only [List.cons_append, List.nil_append] at evicted
          by_cases staged : gup = .ok ∧ down = .ok
          · rw [if_pos staged]
            have owned := @performAll_own _ env [.recordFilled victim .admission, .setPend victim]
              [.stamp victim, .issued victim (L * NE + e), .ringPut index victim]
              (by simp [HostAct.aside]) (by simp [HostAct.aside])
              ((.invalidate victim (some .admission) :: .unmap victim :: .awaitReady ::
                ((if reaped.pend victim = true then [HostAct.await victim .admission] else []) ++
                  stageCopies env .admission victim (L * NE + e) gup down)).foldl
                    (perform env) reaped) victim (L * NE + e)
            rw [evicted.1, evicted.2, ← List.foldl_append] at owned
            simp only [List.cons_append, List.nil_append, List.append_assoc] at owned ⊢
            rw [DirectoryConsistent, owned.1, owned.2]
            exact Inverse.replace reapedConsistent absent
          · rw [if_neg staged, ← List.cons_append, ← List.cons_append, ← List.cons_append,
              List.foldl_append]
            simp only [List.foldl_cons, List.foldl_nil, perform] at evicted ⊢
            rw [DirectoryConsistent]
            simp only
            rw [evicted.1, evicted.2]
            exact Inverse.evict reapedConsistent

theorem moeResident_hit (query : Nat → Bool) (cache : ExpertCache Scores) (L e NE : Nat)
    (st : CudaStream) (gup down : Staged) (present : cache.map (L * NE + e) ≠ none) :
    SameDirectory ((cache.moeResident env query L e NE st gup down).foldl (perform env) cache)
      cache := by
  apply performAll_aside
  obtain ⟨slot, known⟩ := Option.ne_none_iff_exists'.mp present
  simp only [moeResident, known]
  split
  next => exact fun _ member => absurd member List.not_mem_nil
  next =>
    apply aside_append
    · apply aside_ite
      intro act member
      rw [List.mem_singleton.mp member]
      split
      next => rfl
      next => rfl
    · simp [HostAct.aside]

/-! ## Runs -/

variable (env)

/-- The call does not evict a key and then fail to stage the one it was asked for. -/
def StagesCleanly (call : CacheCall Scores) (cache : ExpertCache Scores) : Prop :=
  match call with
  | .resident L e NE _ gup down =>
      cache.slots ≠ 0 → cache.map (L * NE + e) = none →
        (cache.key (cache.moeEvVictim env)).isSome = true → gup = .ok ∧ down = .ok
  | _ => True

variable {env}

theorem serve_consistent_iff {cache : ExpertCache Scores}
    (request : CacheCall Scores × (Nat → Bool)) (consistent : cache.DirectoryConsistent) :
    (cache.serve env request).DirectoryConsistent ↔ StagesCleanly env request.1 cache := by
  obtain ⟨call, query⟩ := request
  cases call with
  | init outcome =>
      exact iff_of_true Inverse.empty trivial
  | setLane lane layer => exact iff_of_true consistent trivial
  | recordReady => exact iff_of_true consistent trivial
  | resident L e NE st gup down =>
      by_cases off : cache.slots = 0
      · simp only [serve, enter, moeResident, if_pos off, List.foldl_nil, StagesCleanly]
        exact iff_of_true consistent fun on => absurd off on
      · by_cases miss : cache.map (L * NE + e) = none
        · have after := @moeResident_miss _ env query cache L e NE st gup down off miss
          simp only [serve, enter, StagesCleanly]
          by_cases staged : gup = .ok ∧ down = .ok
          · simp only [if_pos staged] at after
            rw [DirectoryConsistent, after.1, after.2]
            exact iff_of_true (Inverse.replace consistent miss) fun _ _ _ => staged
          · simp only [if_neg staged] at after
            rw [DirectoryConsistent, after.1, after.2, Inverse.unmap_iff consistent]
            constructor
            · intro empty _ _ occupied
              rw [empty] at occupied
              cases occupied
            · intro clean
              by_contra occupied
              exact staged (clean off miss (Option.isSome_iff_ne_none.mpr occupied))
        · have same := @moeResident_hit _ env query cache L e NE st gup down miss
          exact iff_of_true (same.consistent_iff.mpr consistent) fun _ absent => absurd absent miss
  | readyNow L e NE =>
      exact iff_of_true ((moeReadyNow_directory query cache L e NE).consistent_iff.mpr consistent)
        trivial
  | admitAsync L e NE gup down =>
      exact iff_of_true (moeAdmitAsync_directory query L e NE gup down consistent) trivial
  | reap =>
      exact iff_of_true ((hf2Reap_directory query cache).consistent_iff.mpr consistent) trivial

variable (env)

/-- The directory is consistent in every state of a run exactly when every call of it
stages cleanly. -/
theorem directoryConsistent_iff_stagesCleanly
    (requests : List (CacheCall Scores × (Nat → Bool))) :
    (∀ count, (serveAll (serve env) (requests.take count) (boot env)).DirectoryConsistent) ↔
      GuardedRun (serve env) (fun request => StagesCleanly env request.1) requests (boot env) := by
  have initial : (boot env).DirectoryConsistent := Inverse.empty
  generalize boot env = cache at initial
  induction requests generalizing cache with
  | nil => exact iff_of_true (fun count => by simpa [serveAll] using initial) trivial
  | cons request rest inductionHypothesis =>
      have step := @serve_consistent_iff _ env cache request initial
      constructor
      · intro always
        have next : (cache.serve env request).DirectoryConsistent := always 1
        exact ⟨step.mp next, (inductionHypothesis _ next).mp fun count => always (count + 1)⟩
      · rintro ⟨clean, later⟩ count
        have next := step.mpr clean
        cases count with
        | zero => exact initial
        | succ count => exact (inductionHypothesis _ next).mpr later count

end ExpertCache

/-! A prefill miss in the lane fails to stage, the key it evicted comes back into another
slot, and the next eviction unmaps it there. -/

def twoSlots : ExpertCache.InitOutcome Unit where
  slots := 2
  ne := 8
  events := fun _ => true
  scores := none
  evGuard := 480
  dmapOn := false

/-- Experts 0 and 1 become resident, expert 2 of the next layer fails in the lane of slot 1,
and experts 1 and 0 are asked for again. -/
def laneFailure : List (CacheCall Unit × (Nat → Bool)) :=
  [.init twoSlots,
    .resident 0 0 8 .compute .ok .ok,
    .resident 0 1 8 .compute .ok .ok,
    .setLane 1 (some 1),
    .resident 1 2 8 .overlap .codesFailed .ok,
    .setLane 1 none,
    .resident 0 1 8 .compute .ok .ok,
    .resident 0 0 8 .compute .ok .ok].map fun call => (call, fun _ => true)

def afterLaneFailure (count : Nat) : ExpertCache Unit :=
  serveAll (ExpertCache.serve plainEnv) (laneFailure.take count) (ExpertCache.boot plainEnv)

theorem laneFailure_splits_the_directory :
    ¬ (∀ count, (afterLaneFailure count).DirectoryConsistent) ∧
      ((afterLaneFailure 7).key 0 = some 1 ∧ (afterLaneFailure 7).key 1 = some 1) ∧
        ((afterLaneFailure 8).key 0 = some 1 ∧ (afterLaneFailure 8).map 1 = none) := by
  refine ⟨?_, by decide, by decide⟩
  intro always
  have mapped := (always 5 1 1).mpr (by decide)
  exact absurd mapped (by decide)

end KairosEngine.Cuda
