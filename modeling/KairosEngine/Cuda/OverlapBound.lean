import KairosEngine.Cuda.OverlapPass

/-!
# How many experts the recency guard spares

A cache that was filled with other experts of the layer, every expert asked for once and every
score the same, gives up its slots in order.  When the pass has taken more ticks than the guard
spares, the first slot is the first again, and with it the first expert of the pass.
-/

namespace KairosEngine.Cuda

open KairosEngine.Library ExpertCache

/-! ## The run -/

/-- A half-life so long that an access counts as one whenever it happens. -/
def countEnv : CacheEnv (Nat → Nat) where
  decay :=
    { touch := fun _ key scores => Function.update scores key (scores key + 1)
      below := fun scores key other => decide (scores key < scores other) }
  gupScaled := true
  downScaled := true
  admitCap := 16
  mutantEarly := false

/-- Four slots to every expert that the pass will take. -/
def countingCache (m guard : Nat) : ExpertCache.InitOutcome (Nat → Nat) where
  slots := 4 * m
  ne := 5 * m
  events := fun _ => true
  scores := some fun _ => 0
  evGuard := guard
  dmapOn := false

/-- The other experts of the layer become resident, one after another. -/
def opening (m guard count : Nat) : List (CacheCall (Nat → Nat) × (Nat → Bool)) :=
  (.init (countingCache m guard), fun _ => true) ::
    (List.range count).map fun place =>
      (.resident 0 (m + place) (5 * m) .overlap .ok .ok, fun _ => true)

def opened (m guard count : Nat) : ExpertCache (Nat → Nat) :=
  serveAll (ExpertCache.serve countEnv) (opening m guard count) (ExpertCache.boot countEnv)

theorem opening_stagesCleanly (m guard count : Nat) :
    GuardedRun (ExpertCache.serve countEnv) (fun request => StagesCleanly countEnv request.1)
      (opening m guard count) (ExpertCache.boot countEnv) := by
  refine ⟨trivial, ?_⟩
  generalize ExpertCache.serve countEnv _ _ = cache
  induction List.range count generalizing cache with
  | nil => trivial
  | cons place rest inductionHypothesis =>
      exact ⟨fun _ _ _ => ⟨rfl, rfl⟩, inductionHypothesis _⟩

/-- The expert of a call: the others first, then those of the pass. -/
def asked (m call : Nat) : Nat := if call < 4 * m then m + call else call - 4 * m

/-- The slots are given out in turn. -/
def turn (m call : Nat) : Nat := if call < 4 * m then call else call - 4 * m

/-- Which of the first `n` calls a slot was given to last. -/
def lastCall (m n slot : Nat) : Option Nat :=
  if slot + 4 * m < n then some (slot + 4 * m)
  else if slot < n ∧ slot < 4 * m then some slot else none

variable {m guard n : Nat} {cache : ExpertCache (Nat → Nat)}

theorem lastCall_succ (twice : n < 8 * m) (slot : Nat) :
    lastCall m (n + 1) slot = if slot = turn m n then some n else lastCall m n slot := by
  unfold lastCall turn
  split_ifs <;> first | rfl | omega | (rw [Option.some.injEq]; omega)

theorem lastCall_lt {slot call : Nat} (last : lastCall m n slot = some call) : call < n := by
  unfold lastCall at last
  split_ifs at last with again
  · cases last
    exact again
  · cases last
    omega

theorem asked_injOn (early : n ≤ 5 * m) : ∀ first ∈ List.range n, ∀ second ∈ List.range n,
    asked m first = asked m second → first = second := by
  intro first firstMember second secondMember same
  have firstBound := List.mem_range.mp firstMember
  have secondBound := List.mem_range.mp secondMember
  unfold asked at same
  split_ifs at same <;> omega

/-- So many calls have been served, each from the next slot in turn, and counted. -/
structure Cycled (m guard n : Nat) (cache : ExpertCache (Nat → Nat)) : Prop where
  consistent : cache.DirectoryConsistent
  slots : cache.slots = 4 * m
  ne : cache.ne = 5 * m
  evGuard : cache.evGuard = guard
  laneL : cache.laneL = none
  clock : cache.clock = n
  owner : ∀ slot, cache.key slot = (lastCall m n slot).map (asked m)
  use : ∀ slot, cache.use slot = (lastCall m n slot).elim 0 (· + 1)
  scores : cache.scores = some fun expert => ((List.range n).map (asked m)).count expert

/-! ## The victims -/

/-- The first of a range that passes a filter heads what is left of it. -/
theorem filter_range_head {count first : Nat} {passes : Nat → Bool} (inside : first < count)
    (skipped : ∀ slot < first, passes slot = false) (passed : passes first = true) :
    ∃ rest, (List.range count).filter passes = first :: rest ∧ ∀ slot ∈ rest, slot < count := by
  obtain ⟨behind, rfl⟩ : ∃ behind, count = first + (behind + 1) := ⟨count - first - 1, by omega⟩
  refine ⟨((List.range behind).map fun slot => first + (slot + 1)).filter passes, ?_, ?_⟩
  · have none : (List.range first).filter passes = [] := by
      rw [List.filter_eq_nil_iff]
      intro slot member
      rw [skipped slot (List.mem_range.mp member)]
      nofun
    rw [List.range_add, List.filter_append, none, List.nil_append, List.range_succ_eq_map,
      List.map_cons, Nat.add_zero, List.filter_cons, if_pos passed, List.map_map]
    rfl
  · intro slot member
    obtain ⟨place, placed, rfl⟩ := List.mem_map.mp (List.mem_filter.mp member).1
    have bound := List.mem_range.mp placed
    omega

namespace Cycled

theorem laneVictim (cycled : Cycled m guard n cache) : cache.laneVictim = none := by
  rw [ExpertCache.laneVictim, cycled.laneL]

theorem use_of_lastCall (cycled : Cycled m guard n cache) {slot call : Nat}
    (last : lastCall m n slot = some call) : cache.use slot = call + 1 := by
  rw [cycled.use, last, Option.elim_some]

/-- While there are empty slots, the next of them. -/
theorem victim_filling (cycled : Cycled m guard n cache) (filling : n < 4 * m) :
    cache.moeEvVictim countEnv = n := by
  have empty : cache.firstEmpty = some n := by
    rw [firstEmpty, cycled.slots, List.find?_range_eq_some]
    refine ⟨?_, List.mem_range.mpr filling, ?_⟩
    · rw [cycled.owner, lastCall, if_neg (by omega), if_neg (by omega)]
      rfl
    · intro slot before
      rw [cycled.owner, lastCall, if_neg (by omega), if_pos (by omega)]
      rfl
  rw [moeEvVictim, cycled.laneVictim, empty]

/-- A full cache holds experts that were asked for once. -/
theorem owned (cycled : Cycled m guard n cache) (full : 4 * m ≤ n) (early : n ≤ 5 * m) {slot : Nat}
    (inside : slot < 4 * m) :
    ∃ expert, cache.key slot = some expert ∧
      ((List.range n).map (asked m)).count expert = 1 := by
  have distinct : ((List.range n).map (asked m)).Nodup :=
    List.Nodup.map_on (asked_injOn early) List.nodup_range
  have given : ∃ call, lastCall m n slot = some call := by
    unfold lastCall
    split
    next => exact ⟨_, rfl⟩
    next => exact ⟨slot, if_pos (by omega)⟩
  obtain ⟨call, last⟩ := given
  refine ⟨asked m call, by rw [cycled.owner, last]; rfl, List.count_eq_one_of_mem distinct ?_⟩
  exact List.mem_map.mpr ⟨call, List.mem_range.mpr (lastCall_lt last), rfl⟩

/-- Once there are none, the first slot outside the guard, since all scores are the same. -/
theorem victim_full (cycled : Cycled m guard n cache) (full : 4 * m ≤ n) (early : n ≤ 5 * m)
    {first : Nat} (inside : first < 4 * m)
    (skipped : ∀ slot < first, cache.clock - cache.use slot < guard)
    (passed : guard ≤ cache.clock - cache.use first) :
    cache.moeEvVictim countEnv = first := by
  have occupied : cache.firstEmpty = none := by
    rw [firstEmpty, cycled.slots, List.find?_range_eq_none]
    intro slot below
    obtain ⟨expert, known, _⟩ := cycled.owned full early below
    rw [known]
    rfl
  obtain ⟨rest, heads, below⟩ := @filter_range_head (4 * m) first
    (fun slot => decide (guard ≤ cache.clock - cache.use slot)) inside
    (fun slot before => decide_eq_false (Nat.not_le_of_lt (skipped slot before)))
    (decide_eq_true passed)
  rw [moeEvVictim, cycled.laneVictim, occupied]
  simp only [cycled.scores]
  rw [cycled.slots, cycled.evGuard, heads, firstLeast_head, Option.getD_some]
  intro slot member
  obtain ⟨expert, known, one⟩ := cycled.owned full early (below slot member)
  obtain ⟨holder, held, one'⟩ := cycled.owned full early inside
  simp only [countEnv, known, held, Option.getD_some, one, one']
  rfl

/-- The slots of the pass are spared while it has taken no more ticks than the guard. -/
theorem victim_next (cycled : Cycled m guard n cache) (room : guard + 2 ≤ m) (full : 4 * m ≤ n)
    (spared : n ≤ 4 * m + guard) : cache.moeEvVictim countEnv = n - 4 * m := by
  apply cycled.victim_full full (by omega) (by omega)
  · intro slot before
    have last : lastCall m n slot = some (slot + 4 * m) := if_pos (by omega)
    rw [cycled.clock, cycled.use_of_lastCall last]
    omega
  · have last : lastCall m n (n - 4 * m) = some (n - 4 * m) := by
      rw [lastCall, if_neg (by omega), if_pos (by omega)]
    rw [cycled.clock, cycled.use_of_lastCall last]
    omega

/-- One more tick, and the first slot is taken again. -/
theorem victim_first (cycled : Cycled m guard (4 * m + guard + 1) cache) (room : guard + 2 ≤ m) :
    cache.moeEvVictim countEnv = 0 := by
  have last : lastCall m (4 * m + guard + 1) 0 = some (0 + 4 * m) := if_pos (by omega)
  apply cycled.victim_full (by omega) (by omega) (by omega)
  · intro slot before
    omega
  · rw [cycled.clock, cycled.use_of_lastCall last]
    omega

/-! ## The calls -/

/-- The expert that is asked for next is not resident. -/
theorem missed (cycled : Cycled m guard n cache) (early : n < 5 * m) :
    cache.map (asked m n) = none := by
  by_contra present
  obtain ⟨slot, known⟩ := Option.ne_none_iff_exists'.mp present
  have owner := (cycled.consistent _ _).mp known
  rw [cycled.owner, Option.map_eq_some_iff] at owner
  obtain ⟨call, last, same⟩ := owner
  have before := lastCall_lt last
  have equal := @asked_injOn m (n + 1) (by omega) call (List.mem_range.mpr (by omega)) n
    (List.mem_range.mpr (by omega)) same
  omega

theorem victim (cycled : Cycled m guard n cache) (room : guard + 2 ≤ m)
    (spared : n ≤ 4 * m + guard) : cache.moeEvVictim countEnv = turn m n := by
  unfold turn
  split
  next filling => exact cycled.victim_filling filling
  next full => exact cycled.victim_next room (by omega) spared

/-- One more call. -/
theorem resolved (cycled : Cycled m guard n cache) (room : guard + 2 ≤ m)
    (spared : n ≤ 4 * m + guard) (query : Nat → Bool) :
    Cycled m guard (n + 1) (cache.resolved countEnv query 0 (asked m n)) := by
  have on : cache.slots ≠ 0 := by
    rw [cycled.slots]
    omega
  have miss : cache.map (0 * cache.ne + asked m n) = none := by
    rw [Nat.zero_mul, Nat.zero_add]
    exact cycled.missed (by omega)
  have slot : residentSlot countEnv cache 0 (asked m n) = turn m n := by
    rw [residentSlot, miss, Option.getD_none, cycled.victim room spared]
  have stamped := @resolved_stamped _ countEnv cache query 0 (asked m n) on
  have keys := @moeResident_miss _ countEnv query cache 0 (asked m n) cache.ne .overlap .ok .ok on
    miss
  simp only [and_self, if_true, cycled.victim room spared, Nat.zero_mul, Nat.zero_add] at keys
  constructor
  · exact (@resolved_mapped _ countEnv cache query 0 (asked m n) on cycled.consistent).consistent
  · rw [stamped.slots, cycled.slots]
  · rw [stamped.ne, cycled.ne]
  · rw [stamped.evGuard, cycled.evGuard]
  · rw [stamped.laneL, cycled.laneL]
  · rw [stamped.clock, cycled.clock]
  · intro place
    have key : (cache.resolved countEnv query 0 (asked m n)).key place = _ := congrFun keys.2 place
    rw [key, Function.update_apply, cycled.owner, lastCall_succ (by omega)]
    split
    next => rfl
    next => rfl
  · intro place
    rw [stamped.use, slot, Function.update_apply, cycled.use, cycled.clock,
      lastCall_succ (by omega)]
    split
    next => rfl
    next => rfl
  · rw [stamped.scores, cycled.scores, Nat.zero_mul, Nat.zero_add, Option.map_some]
    congr 1
    funext expert
    rw [List.range_succ, List.map_append, List.count_append, List.map_singleton]
    simp only [countEnv, Function.update_apply]
    split
    next here => rw [here, List.count_singleton_self]
    next away => rw [List.count_singleton, if_neg (by simpa using Ne.symm away), Nat.add_zero]

theorem start (m guard : Nat) : Cycled m guard 0 (opened m guard 0) where
  consistent := Inverse.empty
  slots := rfl
  ne := rfl
  evGuard := rfl
  laneL := rfl
  clock := rfl
  owner := fun slot => by
    rw [lastCall, if_neg (by omega), if_neg (by omega)]
    rfl
  use := fun slot => by
    rw [lastCall, if_neg (by omega), if_neg (by omega)]
    rfl
  scores := rfl

theorem opened (room : guard + 2 ≤ m) :
    ∀ count ≤ 4 * m, Cycled m guard count (Cuda.opened m guard count)
  | 0, _ => start m guard
  | count + 1, inside => by
    have before := opened room count (by omega)
    have next := before.resolved room (by omega) fun _ => true
    have expert : asked m count = m + count := if_pos (by omega)
    rw [ExpertCache.resolved, before.ne, expert] at next
    rw [Cuda.opened, opening, List.range_succ, List.map_append, List.map_singleton,
      ← List.cons_append, serveAll_append]
    exact next

/-- An expert that is not mapped stays so while others are asked for. -/
theorem overlapPass_absent {Scores : Type} {env : CacheEnv Scores} (query : Nat → Nat → Bool)
    {key : Nat} :
    ∀ {active : List Nat} {cache : ExpertCache Scores}, cache.slots ≠ 0 → cache.map key = none →
      key ∉ active → (overlapPass env query 0 active cache).map key = none
  | [], _, _, absent, _ => absent
  | e :: rest, cache, on, absent, others => by
    rw [List.mem_cons, not_or] at others
    have stamped := @resolved_stamped _ env cache (query e) 0 e on
    apply overlapPass_absent query (by rwa [stamped.slots]) _ others.2
    by_cases present : cache.map (0 * cache.ne + e) = none
    · have after := @moeResident_miss _ env (query e) cache 0 e cache.ne .overlap .ok .ok on present
      simp only [and_self, if_true, Nat.zero_mul, Nat.zero_add] at after
      have mapped : (cache.resolved env (query e) 0 e).map key = _ := congrFun after.1 key
      rw [mapped, Function.update_of_ne others.1, unmapOwner_of_unmapped absent]
    · have same := @moeResident_hit _ env (query e) cache 0 e cache.ne .overlap .ok .ok present
      exact (congrFun same.1 key).trans absent

/-- The pass goes on from its first experts and loses the first of them. -/
theorem loses (room : guard + 2 ≤ m) (query : Nat → Nat → Bool) :
    ∀ (left : Nat) {before : Nat} {cache : ExpertCache (Nat → Nat)}, before + left = guard + 1 →
      Cycled m guard (4 * m + before) cache →
      (overlapPass countEnv query 0 (List.range' before (m - before)) cache).map 0 = none
  | 0, before, cache, last, cycled => by
    obtain rfl : before = guard + 1 := by omega
    obtain ⟨behind, size⟩ : ∃ behind, m - (guard + 1) = behind + 1 := ⟨m - guard - 2, by omega⟩
    have on : cache.slots ≠ 0 := by
      rw [cycled.slots]
      omega
    have expert : asked m (4 * m + (guard + 1)) = guard + 1 := by
      rw [asked, if_neg (by omega)]
      omega
    have miss : cache.map (0 * cache.ne + (guard + 1)) = none := by
      rw [Nat.zero_mul, Nat.zero_add, ← expert]
      exact cycled.missed (by omega)
    have victim := cycled.victim_first room
    have stamped := @resolved_stamped _ countEnv cache (query (guard + 1)) 0 (guard + 1) on
    have after := @moeResident_miss _ countEnv (query (guard + 1)) cache 0 (guard + 1) cache.ne
      .overlap .ok .ok on miss
    simp only [and_self, if_true, Nat.zero_mul, Nat.zero_add, victim] at after
    have owner : cache.key 0 = some 0 := by
      rw [cycled.owner, lastCall, if_pos (by omega), Option.map_some, asked, if_neg (by omega)]
      simp
    have lost : (cache.resolved countEnv (query (guard + 1)) 0 (guard + 1)).map 0 = none := by
      have mapped : (cache.resolved countEnv (query (guard + 1)) 0 (guard + 1)).map 0 = _ :=
        congrFun after.1 0
      rw [mapped, Function.update_of_ne (by omega), unmapOwner, owner]
      exact Function.update_self ..
    rw [size, List.range'_succ, overlapPass]
    apply overlapPass_absent query (by rwa [stamped.slots]) lost
    rw [List.mem_range'_1]
    omega
  | left + 1, before, cache, last, cycled => by
    obtain ⟨behind, size⟩ : ∃ behind, m - before = behind + 1 := ⟨m - before - 1, by omega⟩
    have expert : asked m (4 * m + before) = before := by
      rw [asked, if_neg (by omega)]
      omega
    have next := cycled.resolved room (by omega) (query before)
    rw [expert] at next
    have rest := loses room query left (by omega : before + 1 + left = guard + 1) next
    rw [size, List.range'_succ, overlapPass]
    rwa [show m - (before + 1) = behind by omega] at rest

end Cycled

/-- More experts than the guard and one: the pass loses its first. -/
theorem not_passKeeps_opened (room : guard + 2 ≤ m) (query : Nat → Nat → Bool) :
    ¬ PassKeeps countEnv query 0 (List.range m) (opened m guard (4 * m)) := by
  intro keeps
  have cycled := Cycled.opened room (4 * m) (Nat.le_refl _)
  have lost := Cycled.loses room query (guard + 1) (Nat.zero_add _) cycled
  obtain ⟨behind, rfl⟩ : ∃ behind, m = behind + 1 := ⟨m - 1, by omega⟩
  rw [List.range_eq_range'] at keeps
  have first := keeps (0, _) (by rw [List.range'_succ, overlapSlots]; exact List.mem_cons_self)
  simp only [Nat.zero_mul, Nat.add_zero] at first
  rw [Nat.sub_zero] at lost
  rw [lost] at first
  cases first

/-! ## The bound -/

/-- From every state of a run that stages cleanly, with the guard at sixteen ticks a layer, pass 1
keeps the experts it takes when there are few enough of them or the policy does not score. -/
theorem overlapPass_keeps_iff (NL m : Nat) (decayed : Bool) :
    (∀ (Scores : Type) (env : CacheEnv Scores)
      (requests : List (CacheCall Scores × (Nat → Bool))) (query : Nat → Nat → Bool) (L : Nat)
      (active : List Nat),
      GuardedRun (ExpertCache.serve env) (fun request => StagesCleanly env request.1) requests
        (ExpertCache.boot env) →
      let start := serveAll (ExpertCache.serve env) requests (ExpertCache.boot env)
      start.scores.isSome = decayed → (decayed = true → start.evGuard = 16 * NL) →
      (start.laneL = none ∨ start.laneL = some L) →
      active.length = m → active.Pairwise (· < ·) → (∀ e ∈ active, e < start.ne) →
      4 * m ≤ start.slots →
      PassKeeps env query L active start) ↔
    decayed = false ∨ m ≤ 16 * NL + 1 := by
  constructor
  · intro always
    by_contra beyond
    obtain ⟨scored, large⟩ := not_or.mp beyond
    have room : 16 * NL + 2 ≤ m := by omega
    have cycled := Cycled.opened room (4 * m) (Nat.le_refl _)
    refine not_passKeeps_opened room (fun _ _ => true) ?_
    apply always _ countEnv (opening m (16 * NL) (4 * m)) _ 0 _ (opening_stagesCleanly _ _ _)
    · change (opened m (16 * NL) (4 * m)).scores.isSome = decayed
      rw [cycled.scores]
      simpa using scored
    · exact fun _ => cycled.evGuard
    · exact Or.inl cycled.laneL
    · exact List.length_range
    · exact List.pairwise_lt_range
    · intro e member
      have inside := List.mem_range.mp member
      have experts : (opened m (16 * NL) (4 * m)).ne = 5 * m := cycled.ne
      change e < (opened m (16 * NL) (4 * m)).ne
      omega
    · exact Nat.le_of_eq cycled.slots.symm
  · intro bound Scores env requests query L active clean start policy guarded layer size ascending
      inside room
    have consistent : start.DirectoryConsistent :=
      clean.preserves (fun request cache stages before => (serve_consistent_iff request before).mpr
        stages) Inverse.empty
    have past : start.StampsPast :=
      serveAll_preserves (fun request cache before => before.serve request) requests
        fun _ => Nat.le_refl 0
    apply passKeeps_of_spared query consistent past (by omega) layer _
      (ascending.imp fun less => Nat.ne_of_lt less) inside
    cases decayed with
    | false => exact Or.inl (Option.not_isSome_iff_eq_none.mp (by simp [policy]))
    | true =>
        rcases bound with unscored | few
        · cases unscored
        · have ticks := guarded rfl
          exact Or.inr (by omega)

/-- One layer, whose guard is sixteen ticks, and eighteen active experts. -/
theorem overlapPass_loses :
    (opened 18 16 72).evGuard = 16 * 1 ∧ 4 * (List.range 18).length ≤ (opened 18 16 72).slots ∧
      ¬ PassKeeps countEnv (fun _ _ => true) 0 (List.range 18) (opened 18 16 72) := by
  have cycled := @Cycled.opened 18 16 (by decide) 72 (by decide)
  refine ⟨cycled.evGuard, Nat.le_of_eq cycled.slots.symm, ?_⟩
  exact @not_passKeeps_opened 18 16 (by decide) fun _ _ => true

end KairosEngine.Cuda
