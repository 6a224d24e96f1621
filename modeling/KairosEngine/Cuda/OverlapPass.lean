import Mathlib.Data.List.Perm.Subperm
import KairosEngine.Cuda.ExpertStaging

/-!
# Pass 1 of the overlap

The active experts of a layer are resolved one after another before any of them is read.  A
resolved one is safe from the lane and from least-recent eviction; the decayed-frequency policy
spares it for a number of ticks, and every expert that is resolved takes a tick.
-/

namespace KairosEngine.Cuda

open KairosEngine.Library

/-! ## The scan for a victim -/

section Scan

variable {less : Nat → Nat → Bool} {candidates : List Nat} {head found : Nat}

/-- One turn of the scan, once it has a holder. -/
def keepLess (less : Nat → Nat → Bool) (holder candidate : Nat) : Nat :=
  if less candidate holder then candidate else holder

theorem firstLeast_cons :
    firstLeast less (head :: candidates) = some (candidates.foldl (keepLess less) head) := by
  rw [firstLeast, List.foldl_cons]
  induction candidates generalizing head with
  | nil => rfl
  | cons candidate rest inductionHypothesis =>
      rw [List.foldl_cons, List.foldl_cons, ← inductionHypothesis, keepLess]
      by_cases smaller : less candidate head = true
      · simp only [if_pos smaller]
      · simp only [if_neg smaller]

theorem foldl_keepLess_mem : candidates.foldl (keepLess less) head ∈ head :: candidates := by
  induction candidates generalizing head with
  | nil => exact List.mem_cons_self
  | cons candidate rest inductionHypothesis =>
      rw [List.foldl_cons]
      rcases List.mem_cons.mp (@inductionHypothesis (keepLess less head candidate)) with same | later
      · rw [same, keepLess]
        split
        next => exact List.mem_cons_of_mem _ List.mem_cons_self
        next => exact List.mem_cons_self
      · exact List.mem_cons_of_mem _ (List.mem_cons_of_mem _ later)

theorem firstLeast_mem (least : firstLeast less candidates = some found) : found ∈ candidates := by
  cases candidates with
  | nil => cases least
  | cons head rest =>
      rw [firstLeast_cons, Option.some.injEq] at least
      rw [← least]
      exact foldl_keepLess_mem

theorem keepLess_le {measure : Nat → Nat} (holder candidate : Nat) :
    let kept := keepLess (fun slot other => decide (measure slot < measure other)) holder candidate
    measure kept ≤ measure holder ∧ measure kept ≤ measure candidate := by
  simp only [keepLess, decide_eq_true_eq]
  split
  next smaller => exact ⟨Nat.le_of_lt smaller, Nat.le_refl _⟩
  next larger => exact ⟨Nat.le_refl _, Nat.le_of_not_lt larger⟩

/-- The holder has the least measure of all that were scanned. -/
theorem foldl_keepLess_le {measure : Nat → Nat} :
    ∀ slot ∈ head :: candidates,
      measure (candidates.foldl
        (keepLess fun slot other => decide (measure slot < measure other)) head) ≤
        measure slot := by
  induction candidates generalizing head with
  | nil =>
      intro slot member
      rw [List.mem_singleton.mp member]
      exact Nat.le_refl _
  | cons candidate rest inductionHypothesis =>
      intro slot member
      rw [List.foldl_cons]
      have least := @inductionHypothesis
        (keepLess (fun slot other => decide (measure slot < measure other)) head candidate)
      have first := least _ List.mem_cons_self
      have kept := @keepLess_le measure head candidate
      rcases List.mem_cons.mp member with rfl | later
      · exact Nat.le_trans first kept.1
      · rcases List.mem_cons.mp later with rfl | rest
        · exact Nat.le_trans first kept.2
        · exact least slot (List.mem_cons_of_mem _ rest)

theorem firstLeast_le {measure : Nat → Nat}
    (least : firstLeast (fun slot other => decide (measure slot < measure other)) candidates
      = some found) : ∀ slot ∈ candidates, measure found ≤ measure slot := by
  cases candidates with
  | nil => cases least
  | cons head rest =>
      rw [firstLeast_cons, Option.some.injEq] at least
      rw [← least]
      exact foldl_keepLess_le

/-- A candidate that nothing behind it beats is kept. -/
theorem firstLeast_head (unbeaten : ∀ candidate ∈ candidates, less candidate head = false) :
    firstLeast less (head :: candidates) = some head := by
  rw [firstLeast_cons, Option.some.injEq]
  induction candidates with
  | nil => rfl
  | cons candidate rest inductionHypothesis =>
      rw [List.foldl_cons, keepLess, unbeaten candidate List.mem_cons_self]
      exact inductionHypothesis fun other member => unbeaten other (List.mem_cons_of_mem _ member)

end Scan

/-! ## What a call does to the policy's state -/

/-- The statement neither stamps a slot nor scores a key. -/
def HostAct.unstamped : HostAct → Bool
  | .stamp _ => false
  | .touch _ => false
  | _ => true

namespace ExpertCache

variable {Scores : Type} {env : CacheEnv Scores} {cache other : ExpertCache Scores}

/-- All that the choice of a victim reads beside the owners. -/
structure SamePolicy (cache other : ExpertCache Scores) : Prop where
  slots : cache.slots = other.slots
  ne : cache.ne = other.ne
  use : cache.use = other.use
  clock : cache.clock = other.clock
  scores : cache.scores = other.scores
  evGuard : cache.evGuard = other.evGuard
  lane : cache.lane = other.lane
  laneL : cache.laneL = other.laneL

theorem SamePolicy.refl : SamePolicy cache cache := ⟨rfl, rfl, rfl, rfl, rfl, rfl, rfl, rfl⟩

theorem SamePolicy.trans {third : ExpertCache Scores} (first : SamePolicy cache other)
    (second : SamePolicy other third) : SamePolicy cache third where
  slots := first.slots.trans second.slots
  ne := first.ne.trans second.ne
  use := first.use.trans second.use
  clock := first.clock.trans second.clock
  scores := first.scores.trans second.scores
  evGuard := first.evGuard.trans second.evGuard
  lane := first.lane.trans second.lane
  laneL := first.laneL.trans second.laneL

theorem perform_unstamped (cache : ExpertCache Scores) {act : HostAct}
    (unstamped : act.unstamped = true) : SamePolicy (cache.perform env act) cache := by
  cases act with
  | stamp slot => cases unstamped
  | touch key => cases unstamped
  | issued slot key =>
      simp only [perform, hf2Issued, hf2UnpubAdd]
      repeat' split
      all_goals exact ⟨rfl, rfl, rfl, rfl, rfl, rfl, rfl, rfl⟩
  | invalidate slot behind =>
      simp only [perform, hf2Invalidate]
      split
      all_goals exact ⟨rfl, rfl, rfl, rfl, rfl, rfl, rfl, rfl⟩
  | unmap slot | await slot stream | recordFilled slot stream | setPend slot =>
      simp only [perform]
      split
      all_goals exact ⟨rfl, rfl, rfl, rfl, rfl, rfl, rfl, rfl⟩
  | awaitReady | clearPend slot | copy stream slot array key | disown slot | own slot key
  | ringPut index slot => exact ⟨rfl, rfl, rfl, rfl, rfl, rfl, rfl, rfl⟩

theorem performAll_unstamped {acts : List HostAct} (unstamped : ∀ act ∈ acts, act.unstamped = true)
    (cache : ExpertCache Scores) : SamePolicy (acts.foldl (perform env) cache) cache := by
  induction acts generalizing cache with
  | nil => exact SamePolicy.refl
  | cons act rest inductionHypothesis =>
      rw [List.foldl_cons]
      exact (inductionHypothesis
        (fun other member => unstamped other (List.mem_cons_of_mem _ member)) _).trans
        (perform_unstamped cache (unstamped act List.mem_cons_self))

/-- The slot that a `moe_resident` call answers with. -/
def residentSlot (env : CacheEnv Scores) (cache : ExpertCache Scores) (L e : Nat) : Nat :=
  (cache.map (L * cache.ne + e)).getD (cache.moeEvVictim env)

/-- A call that stages ends with the stamp and the score, and has neither before. -/
theorem moeResident_acts (query : Nat → Bool) (L e : Nat) (st : CudaStream)
    (on : cache.slots ≠ 0) :
    ∃ acts, (∀ act ∈ acts, act.unstamped = true) ∧
      cache.moeResident env query L e cache.ne st .ok .ok =
        acts ++ [.stamp (residentSlot env cache L e), .touch (L * cache.ne + e)] := by
  simp only [moeResident, residentSlot, if_neg on]
  cases cache.map (L * cache.ne + e) with
  | none =>
      simp only [Option.getD_none, and_self, if_true]
      generalize cache.moeEvVictim env = victim
      refine ⟨[HostAct.invalidate victim (if st = .compute then none else some st),
          .unmap victim] ++
        (if cache.pend victim then [HostAct.await victim st, .clearPend victim] else []) ++
        stageCopies env st victim (L * cache.ne + e) .ok .ok ++
        (HostAct.own victim (L * cache.ne + e) ::
          (if cache.dmapOn then [HostAct.recordFilled victim st, .issued victim (L * cache.ne + e)]
          else [])), ?_, by simp only [List.append_assoc, List.cons_append]⟩
      intro act member
      simp only [List.mem_append, List.mem_cons, List.not_mem_nil, or_false] at member
      rcases member with (((rfl | rfl) | awaited) | copied) | rfl | recorded
      · rfl
      · rfl
      · split at awaited
        next =>
          rcases List.mem_cons.mp awaited with rfl | last
          · rfl
          · rw [List.mem_singleton.mp last]
            rfl
        next => exact absurd awaited List.not_mem_nil
      · obtain ⟨array, rfl⟩ := mem_stageCopies copied
        rfl
      · rfl
      · split at recorded
        next =>
          rcases List.mem_cons.mp recorded with rfl | last
          · rfl
          · rw [List.mem_singleton.mp last]
            rfl
        next => exact absurd recorded List.not_mem_nil
  | some slot =>
      refine ⟨if cache.pend slot then
        [if cache.settled query slot then .clearPend slot else .await slot st] else [], ?_, rfl⟩
      intro act member
      split at member
      next =>
        rw [List.mem_singleton.mp member]
        split
        next => rfl
        next => rfl
      next => exact absurd member List.not_mem_nil

/-- A whole call that stages. -/
def resolved (env : CacheEnv Scores) (query : Nat → Bool) (L e : Nat) (cache : ExpertCache Scores) :
    ExpertCache Scores :=
  cache.serve env (.resident L e cache.ne .overlap .ok .ok, query)

/-- What it changes of the policy's state. -/
structure Stamped (env : CacheEnv Scores) (L e : Nat) (before after : ExpertCache Scores) :
    Prop where
  slots : after.slots = before.slots
  ne : after.ne = before.ne
  use : after.use =
    Function.update before.use (residentSlot env before L e) (before.clock + 1)
  clock : after.clock = before.clock + 1
  scores : after.scores =
    before.scores.map (env.decay.touch (before.clock + 1) (L * before.ne + e))
  evGuard : after.evGuard = before.evGuard
  lane : after.lane = before.lane
  laneL : after.laneL = before.laneL

theorem resolved_stamped (query : Nat → Bool) (L e : Nat) (on : cache.slots ≠ 0) :
    Stamped env L e cache (cache.resolved env query L e) := by
  obtain ⟨acts, unstamped, split⟩ := @moeResident_acts _ env cache query L e .overlap on
  have same := @performAll_unstamped _ env _ unstamped cache
  simp only [resolved, serve, enter, split, List.foldl_append, List.foldl_cons, List.foldl_nil,
    perform, moeEvTouch]
  constructor
  · exact same.slots
  · exact same.ne
  · simp only [same.use, same.clock]
  · simp only [same.clock]
  · simp only [same.clock, same.scores]
  · exact same.evGuard
  · exact same.lane
  · exact same.laneL

/-- What it does to the directory. -/
structure Mapped (env : CacheEnv Scores) (L e : Nat) (before after : ExpertCache Scores) :
    Prop where
  consistent : after.DirectoryConsistent
  here : after.map (L * before.ne + e) = some (residentSlot env before L e)
  elsewhere : ∀ key slot, before.map key = some slot → slot ≠ residentSlot env before L e →
    after.map key = some slot

theorem resolved_mapped (query : Nat → Bool) (L e : Nat) (on : cache.slots ≠ 0)
    (consistent : cache.DirectoryConsistent) :
    Mapped env L e cache (cache.resolved env query L e) := by
  cases known : cache.map (L * cache.ne + e) with
  | some slot =>
      have same := @moeResident_hit _ env query cache L e cache.ne .overlap .ok .ok (by simp [known])
      have answered : residentSlot env cache L e = slot := by rw [residentSlot, known, Option.getD_some]
      refine ⟨same.consistent_iff.mpr consistent, ?_, fun key other mapped _ => ?_⟩
      · rw [answered]
        exact (congrFun same.1 _).trans known
      · exact (congrFun same.1 _).trans mapped
  | none =>
      have after := @moeResident_miss _ env query cache L e cache.ne .overlap .ok .ok on known
      simp only [and_self, if_true] at after
      have answered : residentSlot env cache L e = cache.moeEvVictim env := by
        rw [residentSlot, known, Option.getD_none]
      refine ⟨?_, ?_, fun key other mapped away => ?_⟩
      · rw [DirectoryConsistent, resolved, serve, enter, after.1, after.2]
        exact Inverse.replace consistent known
      · rw [answered, resolved, serve, enter, after.1, Function.update_self]
      · have apart : key ≠ L * cache.ne + e := by
          rintro rfl
          rw [known] at mapped
          cases mapped
        rw [answered] at away
        rw [resolved, serve, enter, after.1, Function.update_of_ne apart]
        exact (unmapOwner_of_ne consistent away key).mpr ((consistent key other).mp mapped)

/-! ## No stamp is ahead of the clock -/

def StampsPast (cache : ExpertCache Scores) : Prop := ∀ slot, cache.use slot ≤ cache.clock

theorem StampsPast.of_same (same : SamePolicy cache other) (past : other.StampsPast) :
    cache.StampsPast := by
  intro slot
  rw [same.use, same.clock]
  exact past slot

theorem StampsPast.perform (past : cache.StampsPast) (act : HostAct) :
    (cache.perform env act).StampsPast := by
  cases act with
  | stamp slot =>
      intro other
      by_cases same : other = slot
      · subst same
        simp only [ExpertCache.perform, Function.update_self]
        exact Nat.le_refl _
      · simp only [ExpertCache.perform, Function.update_of_ne same]
        exact Nat.le_succ_of_le (past other)
  | touch key => exact past
  | _ => exact past.of_same (perform_unstamped cache rfl)

theorem hf2Reap_policy (query : Nat → Bool) (cache : ExpertCache Scores) :
    SamePolicy (cache.hf2Reap query) cache := by
  obtain ⟨_, _, changed⟩ := hf2Reap_changes query cache
  rw [changed]
  exact ⟨rfl, rfl, rfl, rfl, rfl, rfl, rfl, rfl⟩

theorem moeAdmitAsync_policy (query : Nat → Bool) (cache : ExpertCache Scores) (L e NE : Nat)
    (gup down : Staged) : SamePolicy (cache.moeAdmitAsync env query L e NE gup down).1 cache := by
  obtain ⟨_, _, _, _, changed⟩ := moeAdmitAsync_changes env query cache L e NE gup down
  rw [changed]
  exact ⟨rfl, rfl, rfl, rfl, rfl, rfl, rfl, rfl⟩

theorem StampsPast.enter (past : cache.StampsPast) (query : Nat → Bool) (call : CacheCall Scores) :
    (cache.enter env query call).1.StampsPast := by
  cases call with
  | init outcome => exact fun _ => Nat.le_refl 0
  | setLane lane layer => exact past
  | recordReady => exact past
  | resident L e NE st gup down => exact past
  | readyNow L e NE =>
      simp only [ExpertCache.enter, moeReadyNow, moeReadyNow.missed]
      repeat' split
      all_goals first | exact past | exact fun slot => Nat.le_succ_of_le (past slot)
  | admitAsync L e NE gup down => exact past.of_same (moeAdmitAsync_policy query cache L e NE gup down)
  | reap => exact past.of_same (hf2Reap_policy query cache)

theorem StampsPast.serve (request : CacheCall Scores × (Nat → Bool)) (past : cache.StampsPast) :
    (cache.serve env request).StampsPast := by
  have entered := @StampsPast.enter _ env _ past request.2 request.1
  rw [ExpertCache.serve]
  generalize cache.enter env request.2 request.1 = outcome at entered
  apply List.foldlRecOn (motive := StampsPast)
  · exact entered
  · intro reached reachedPast act _
    exact reachedPast.perform act

/-! ## The pass -/

/-- Pass 1 over the active experts of the layer; `query` answers `cudaEventQuery` during the call
for an expert. -/
def overlapPass (env : CacheEnv Scores) (query : Nat → Nat → Bool) (L : Nat) :
    List Nat → ExpertCache Scores → ExpertCache Scores
  | [], cache => cache
  | e :: rest, cache => overlapPass env query L rest (cache.resolved env (query e) L e)

/-- The experts with the slots their calls answer with. -/
def overlapSlots (env : CacheEnv Scores) (query : Nat → Nat → Bool) (L : Nat) :
    List Nat → ExpertCache Scores → List (Nat × Nat)
  | [], _ => []
  | e :: rest, cache =>
      (e, residentSlot env cache L e) ::
        overlapSlots env query L rest (cache.resolved env (query e) L e)

/-- Every member is mapped to its slot when the pass is over. -/
def PassKeeps (env : CacheEnv Scores) (query : Nat → Nat → Bool) (L : Nat) (active : List Nat)
    (cache : ExpertCache Scores) : Prop :=
  ∀ taken ∈ overlapSlots env query L active cache,
    (overlapPass env query L active cache).map (L * cache.ne + taken.1) = some taken.2

/-! ### What a victim is not -/

variable {L clock : Nat} {taken : List (Nat × Nat)}

/-- The pass has come to here: what is taken is mapped and was stamped since its start, and no
other slot was. -/
structure Taken (L clock : Nat) (taken : List (Nat × Nat)) (cache : ExpertCache Scores) : Prop where
  consistent : cache.DirectoryConsistent
  ticks : cache.clock = clock + taken.length
  mapped : ∀ one ∈ taken, cache.map (L * cache.ne + one.1) = some one.2
  inside : ∀ one ∈ taken, one.1 < cache.ne
  recent : ∀ one ∈ taken, clock < cache.use one.2
  others : ∀ slot, (∀ one ∈ taken, one.2 ≠ slot) → cache.use slot ≤ clock

theorem firstEmpty_key {slot : Nat} (found : cache.firstEmpty = some slot) :
    cache.key slot = none := by
  have empty := List.find?_some found
  exact Option.isNone_iff_eq_none.mp empty

namespace Taken

theorem owned (sofar : Taken L clock taken cache) {one : Nat × Nat} (member : one ∈ taken) :
    cache.key one.2 = some (L * cache.ne + one.1) :=
  (sofar.consistent _ _).mp (sofar.mapped one member)

/-- An empty slot was not taken. -/
theorem firstEmpty_ne (sofar : Taken L clock taken cache) {slot : Nat}
    (found : cache.firstEmpty = some slot) : ∀ one ∈ taken, one.2 ≠ slot := by
  rintro one member rfl
  have owner := sofar.owned member
  rw [firstEmpty_key found] at owner
  cases owner

/-- Nor was one that the lane gives up, since it is of another layer. -/
theorem laneVictim_ne (sofar : Taken L clock taken cache) {slot : Nat}
    (layer : cache.laneL = none ∨ cache.laneL = some L) (found : cache.laneVictim = some slot) :
    ∀ one ∈ taken, one.2 ≠ slot := by
  unfold laneVictim at found
  rcases layer with off | resolving
  · rw [off] at found
    cases found
  · rw [resolving] at found
    simp only at found
    split at found
    next sized =>
      cases empty : cache.firstEmpty with
      | some first =>
          rw [empty] at found
          cases found
          exact sofar.firstEmpty_ne empty
      | none =>
          rw [empty] at found
          have candidate := (List.mem_filter.mp (firstLeast_mem found)).2
          rintro one member rfl
          rw [sofar.owned member] at candidate
          have ours : (L * cache.ne + one.1) / cache.ne = L := by
            rw [Nat.mul_comm, Nat.mul_add_div sized.2, Nat.div_eq_of_lt (sofar.inside one member),
              Nat.add_zero]
          simp [ours] at candidate
    next => cases found

/-- Some slot was not taken, and it was used less recently than all that were. -/
theorem exists_older (sofar : Taken L clock taken cache) (room : taken.length < cache.slots) :
    ∃ slot < cache.slots, cache.use slot ≤ clock := by
  by_contra absent
  have later : ∀ slot < cache.slots, clock < cache.use slot := fun slot inside =>
    Nat.lt_of_not_le fun old => absent ⟨slot, inside, old⟩
  have covered : (List.range cache.slots) ⊆ taken.map Prod.snd := by
    intro slot member
    by_contra untaken
    have old := sofar.others slot fun one one_member same =>
      untaken (List.mem_map.mpr ⟨one, one_member, same⟩)
    have used := later slot (List.mem_range.mp member)
    omega
  have count := (List.nodup_range.subperm covered).length_le
  rw [List.length_range, List.length_map] at count
  omega

theorem leastRecent_ne (sofar : Taken L clock taken cache) (room : taken.length < cache.slots) :
    ∀ one ∈ taken,
      one.2 ≠ (firstLeast cache.lessRecent (List.range cache.slots)).getD 0 := by
  obtain ⟨slot, inside, old⟩ := sofar.exists_older room
  cases found : firstLeast cache.lessRecent (List.range cache.slots) with
  | none =>
      obtain ⟨count, slots⟩ : ∃ count, cache.slots = count + 1 := ⟨cache.slots - 1, by omega⟩
      rw [slots, List.range_succ_eq_map, firstLeast_cons] at found
      cases found
  | some victim =>
      have least := @firstLeast_le (List.range cache.slots) victim cache.use found slot
        (List.mem_range.mpr inside)
      rintro one member rfl
      have recent := sofar.recent one member
      omega

/-- The policy takes no slot of the pass, by least recent use always and by score as long as the
pass has not taken more ticks than the guard spares. -/
theorem victim_ne (sofar : Taken L clock taken cache) (room : taken.length < cache.slots)
    (layer : cache.laneL = none ∨ cache.laneL = some L)
    (spared : cache.scores = none ∨ taken.length ≤ cache.evGuard) :
    ∀ one ∈ taken, one.2 ≠ cache.moeEvVictim env := by
  unfold moeEvVictim
  cases lane : cache.laneVictim with
  | some slot => exact sofar.laneVictim_ne layer lane
  | none =>
      cases empty : cache.firstEmpty with
      | some slot => exact sofar.firstEmpty_ne empty
      | none =>
          cases scored : cache.scores with
          | none => exact sofar.leastRecent_ne room
          | some scores =>
              simp only
              generalize found : firstLeast _ _ = least
              cases least with
              | none => exact sofar.leastRecent_ne room
              | some victim =>
                  have outside := of_decide_eq_true (List.mem_filter.mp (firstLeast_mem found)).2
                  rintro one member rfl
                  have recent := sofar.recent one member
                  have ticks := sofar.ticks
                  have counted := List.length_pos_of_mem member
                  rcases spared with unscored | few
                  · rw [scored] at unscored
                    cases unscored
                  · omega

/-- The slot a call answers with was not taken before, on a hit because another expert is in it. -/
theorem residentSlot_ne (sofar : Taken L clock taken cache) (room : taken.length < cache.slots)
    (layer : cache.laneL = none ∨ cache.laneL = some L)
    (spared : cache.scores = none ∨ taken.length ≤ cache.evGuard) {e : Nat}
    (fresh : ∀ one ∈ taken, one.1 ≠ e) :
    ∀ one ∈ taken, one.2 ≠ residentSlot env cache L e := by
  unfold residentSlot
  cases known : cache.map (L * cache.ne + e) with
  | none => exact sofar.victim_ne room layer spared
  | some slot =>
      rintro one member rfl
      have owner := (sofar.consistent _ _).mp known
      rw [sofar.owned member, Option.some.injEq] at owner
      have apart := fresh one member
      omega

/-- One more call. -/
theorem resolved (sofar : Taken L clock taken cache) (room : taken.length < cache.slots)
    (layer : cache.laneL = none ∨ cache.laneL = some L)
    (spared : cache.scores = none ∨ taken.length ≤ cache.evGuard) (query : Nat → Bool) {e : Nat}
    (inside : e < cache.ne) (fresh : ∀ one ∈ taken, one.1 ≠ e) :
    Taken L clock ((e, residentSlot env cache L e) :: taken) (cache.resolved env query L e) := by
  have on : cache.slots ≠ 0 := by omega
  have apart := @residentSlot_ne _ env _ _ _ _ sofar room layer spared e fresh
  have stamped := @resolved_stamped _ env cache query L e on
  have mapped := @resolved_mapped _ env cache query L e on sofar.consistent
  have ticks := sofar.ticks
  constructor
  · exact mapped.consistent
  · rw [stamped.clock, List.length_cons]
    omega
  · intro one member
    rw [stamped.ne]
    rcases List.mem_cons.mp member with rfl | before
    · exact mapped.here
    · exact mapped.elsewhere _ _ (sofar.mapped one before) (apart one before)
  · intro one member
    rw [stamped.ne]
    rcases List.mem_cons.mp member with rfl | before
    · exact inside
    · exact sofar.inside one before
  · intro one member
    rw [stamped.use]
    rcases List.mem_cons.mp member with rfl | before
    · rw [Function.update_self]
      omega
    · rw [Function.update_of_ne (apart one before)]
      exact sofar.recent one before
  · intro slot untaken
    have away : slot ≠ residentSlot env cache L e := (untaken _ List.mem_cons_self).symm
    rw [stamped.use, Function.update_of_ne away]
    exact sofar.others slot fun one member => untaken one (List.mem_cons_of_mem _ member)

/-- The calls that are left keep what was taken and take the rest. -/
theorem pass (query : Nat → Nat → Bool) :
    ∀ {active : List Nat} {taken : List (Nat × Nat)} {cache : ExpertCache Scores},
      Taken L clock taken cache →
      taken.length + active.length ≤ cache.slots →
      (cache.laneL = none ∨ cache.laneL = some L) →
      (cache.scores = none ∨ taken.length + active.length ≤ cache.evGuard + 1) →
      active.Nodup → (∀ e ∈ active, e < cache.ne) → (∀ e ∈ active, ∀ one ∈ taken, one.1 ≠ e) →
      ∀ one ∈ taken ++ overlapSlots env query L active cache,
        (overlapPass env query L active cache).map (L * cache.ne + one.1) = some one.2
  | [], taken, cache, sofar, _, _, _, _, _, _, one, member => by
    rw [overlapSlots, List.append_nil] at member
    exact sofar.mapped one member
  | e :: rest, taken, cache, sofar, room, layer, spared, distinct, inside, fresh, one, member => by
    rw [List.length_cons] at room spared
    have on : cache.slots ≠ 0 := by omega
    have stamped := @resolved_stamped _ env cache (query e) L e on
    have next := @resolved _ env _ _ _ _ sofar (by omega) layer (spared.imp_right fun few => by omega)
      (query e) e (inside e List.mem_cons_self) (fresh e List.mem_cons_self)
    have later := @pass query rest _ _ next
      (by rw [stamped.slots, List.length_cons]; omega) (by rwa [stamped.laneL])
      (by
        rw [stamped.scores, stamped.evGuard, List.length_cons, Option.map_eq_none_iff]
        exact spared.imp_right fun few => by omega)
      (List.nodup_cons.mp distinct).2
      (fun other later => by rw [stamped.ne]; exact inside other (List.mem_cons_of_mem _ later))
      (by
        intro other later one member
        rcases List.mem_cons.mp member with rfl | before
        · rintro rfl
          exact (List.nodup_cons.mp distinct).1 later
        · exact fresh other (List.mem_cons_of_mem _ later) one before)
      one
    rw [stamped.ne] at later
    apply later
    rw [overlapSlots] at member
    rcases List.mem_append.mp member with before | after
    · exact List.mem_append_left _ (List.mem_cons_of_mem _ before)
    · rcases List.mem_cons.mp after with rfl | behind
      · exact List.mem_append_left _ List.mem_cons_self
      · exact List.mem_append_right _ behind

end Taken

/-- From a consistent directory the pass keeps what it takes, under the least-recent policy and
as long as the active experts are no more than the guard and one. -/
theorem passKeeps_of_spared (query : Nat → Nat → Bool) {active : List Nat}
    (consistent : cache.DirectoryConsistent) (past : cache.StampsPast)
    (room : active.length ≤ cache.slots) (layer : cache.laneL = none ∨ cache.laneL = some L)
    (spared : cache.scores = none ∨ active.length ≤ cache.evGuard + 1) (distinct : active.Nodup)
    (inside : ∀ e ∈ active, e < cache.ne) : PassKeeps env query L active cache := by
  have start : Taken L cache.clock [] cache :=
    ⟨consistent, rfl, by simp, by simp, by simp, fun slot _ => past slot⟩
  intro one member
  apply start.pass query (by simpa using room) layer (by simpa using spared) distinct inside (by simp)
  exact member

end ExpertCache

end KairosEngine.Cuda
