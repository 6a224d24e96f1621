import Mathlib.Logic.Function.Basic
import KairosEngine.Library.Streams

/-!
# The resident expert cache

The directory of the VRAM expert slots (`g_ec_map`, `g_ec_key`), the pending flags and
events of the slots, the admission ring and the device slot table of P2.1.  A call is the
list of statements it runs under the lock, so that the device may make progress between
any two of them.
-/

namespace KairosEngine.Cuda

open KairosEngine.Library

inductive CudaStream
  | compute
  | overlap
  | admission
  deriving DecidableEq

/-- The four arrays of a slot. -/
inductive SlotArray
  | gupCodes
  | gupBs
  | downCodes
  | downBs
  deriving DecidableEq

inductive ExpertWork
  | copy (slot : Nat) (array : SlotArray) (key : Nat)
  deriving DecidableEq

/-- The decayed-frequency scores of `moe_ev_touch`, which are doubles. -/
structure Decay (Scores : Type) where
  touch : Nat → Nat → Scores → Scores
  /-- The score of the first key is below that of the second. -/
  below : Scores → Nat → Nat → Bool

/-- What a process fixes before the cache is used. -/
structure CacheEnv (Scores : Type) where
  decay : Decay Scores
  /-- The experts have block scales, for `gup` and for `down`. -/
  gupScaled : Bool
  downScaled : Bool
  admitCap : Nat
  mutantEarly : Bool

structure ExpertCache (Scores : Type) where
  /-- None while the cache is off. -/
  slots : Nat
  ne : Nat
  map : Nat → Option Nat
  key : Nat → Option Nat
  use : Nat → Nat
  clock : Nat
  /-- None for LRU eviction. -/
  scores : Option Scores
  evGuard : Nat
  lane : Nat
  laneL : Option Nat
  pend : Nat → Bool
  /-- The event of a slot, where it could be created, and its last record. -/
  pev : Nat → Option (Option Nat)
  ring : List (Option Nat)
  admReady : Option Nat
  dmapOn : Bool
  dmap : Nat → Option Nat
  unpub : List Nat
  device : Device CudaStream ExpertWork

/-- One `moe_stage` call. -/
inductive Staged
  | ok
  | codesFailed
  | scalesFailed
  deriving DecidableEq

variable {Scores : Type}

/-! ## The victim -/

/-- The first candidate that no other beats. -/
def firstLeast (less : Nat → Nat → Bool) (candidates : List Nat) : Option Nat :=
  candidates.foldl
    (fun best candidate =>
      match best with
      | none => some candidate
      | some holder => if less candidate holder then some candidate else some holder)
    none

namespace ExpertCache

def firstEmpty (cache : ExpertCache Scores) : Option Nat :=
  (List.range cache.slots).find? fun slot => (cache.key slot).isNone

def lessRecent (cache : ExpertCache Scores) (slot other : Nat) : Bool :=
  decide (cache.use slot < cache.use other)

/-- The slots of the prefill lane that do not belong to its layer. -/
def laneVictim (cache : ExpertCache Scores) : Option Nat :=
  match cache.laneL with
  | some layer =>
      if 0 < cache.lane ∧ 0 < cache.ne then
        match cache.firstEmpty with
        | some slot => some slot
        | none =>
            firstLeast cache.lessRecent
              ((List.range' (cache.slots - cache.lane) cache.lane).filter fun slot =>
                decide ((cache.key slot).map (· / cache.ne) ≠ some layer))
      else
        none
  | none => none

/-- `moe_ev_victim`. -/
def moeEvVictim (env : CacheEnv Scores) (cache : ExpertCache Scores) : Nat :=
  match cache.laneVictim with
  | some slot => slot
  | none =>
      match cache.firstEmpty with
      | some slot => slot
      | none =>
          let victim := (firstLeast cache.lessRecent (List.range cache.slots)).getD 0
          match cache.scores with
          | none => victim
          | some scores =>
              (firstLeast
                (fun slot other =>
                  env.decay.below scores ((cache.key slot).getD 0) ((cache.key other).getD 0))
                ((List.range cache.slots).filter fun slot =>
                  decide (cache.evGuard ≤ cache.clock - cache.use slot))).getD victim

/-! ## The statements of a call -/

/-- `g_ec_pev[slot]` is missing or reports success. -/
def settled (query : Nat → Bool) (cache : ExpertCache Scores) (slot : Nat) : Bool :=
  match cache.pev slot with
  | some (some event) => query event
  | _ => true

end ExpertCache

inductive HostAct
  /-- `hf2_invalidate`; the copy stream that has to follow the decode stream, if any. -/
  | invalidate (slot : Nat) (behind : Option CudaStream)
  | unmap (slot : Nat)
  | await (slot : Nat) (stream : CudaStream)
  | awaitReady
  | clearPend (slot : Nat)
  | copy (stream : CudaStream) (slot : Nat) (array : SlotArray) (key : Nat)
  | disown (slot : Nat)
  | own (slot key : Nat)
  | recordFilled (slot : Nat) (stream : CudaStream)
  | setPend (slot : Nat)
  /-- `hf2_issued`. -/
  | issued (slot key : Nat)
  | stamp (slot : Nat)
  /-- `moe_ev_touch`. -/
  | touch (key : Nat)
  | ringPut (index slot : Nat)

namespace ExpertCache

def hf2UnpubAdd (cache : ExpertCache Scores) (slot : Nat) : ExpertCache Scores :=
  if cache.dmapOn = false ∨ cache.slots ≤ slot ∨ slot ∈ cache.unpub then cache
  else { cache with unpub := cache.unpub ++ [slot] }

def hf2Invalidate (cache : ExpertCache Scores) (slot : Nat) (behind : Option CudaStream) :
    ExpertCache Scores :=
  if cache.dmapOn then
    { cache with
      unpub := cache.unpub.filter (· ≠ slot)
      dmap :=
        match cache.key slot with
        | some old => Function.update cache.dmap old none
        | none => cache.dmap
      device :=
        match behind with
        | some stream =>
            (cache.device.record .compute).wait stream (some cache.device.ticket)
        | none => cache.device }
  else
    cache

def hf2Issued (env : CacheEnv Scores) (cache : ExpertCache Scores) (slot key : Nat) :
    ExpertCache Scores :=
  if cache.dmapOn then
    hf2UnpubAdd
      (if env.mutantEarly then
        { cache with dmap := Function.update cache.dmap key (some slot) }
      else cache) slot
  else
    cache

def moeEvTouch (env : CacheEnv Scores) (cache : ExpertCache Scores) (key : Nat) :
    ExpertCache Scores :=
  { cache with scores := cache.scores.map (env.decay.touch cache.clock key) }

def perform (env : CacheEnv Scores) (cache : ExpertCache Scores) : HostAct → ExpertCache Scores
  | .invalidate slot behind => cache.hf2Invalidate slot behind
  | .unmap slot =>
      match cache.key slot with
      | some old => { cache with map := Function.update cache.map old none }
      | none => cache
  | .await slot stream =>
      match cache.pev slot with
      | some event => { cache with device := cache.device.wait stream event }
      | none => cache
  | .awaitReady => { cache with device := cache.device.wait .admission cache.admReady }
  | .clearPend slot => { cache with pend := Function.update cache.pend slot false }
  | .copy stream slot array key =>
      { cache with device := cache.device.launch stream (.copy slot array key) }
  | .disown slot => { cache with key := Function.update cache.key slot none }
  | .own slot key =>
      { cache with
        key := Function.update cache.key slot (some key)
        map := Function.update cache.map key (some slot) }
  | .recordFilled slot stream =>
      match cache.pev slot with
      | some _ =>
          { cache with
            pev := Function.update cache.pev slot (some (some cache.device.ticket))
            device := cache.device.record stream }
      | none => cache
  | .setPend slot =>
      if (cache.pev slot).isSome then
        { cache with pend := Function.update cache.pend slot true }
      else cache
  | .issued slot key => cache.hf2Issued env slot key
  | .stamp slot =>
      { cache with
        use := Function.update cache.use slot (cache.clock + 1)
        clock := cache.clock + 1 }
  | .touch key => cache.moeEvTouch env key
  | .ringPut index slot => { cache with ring := cache.ring.set index (some slot) }

/-! ## The calls -/

/-- The copies of one `moe_stage`. -/
def tensorCopies (stream : CudaStream) (slot key : Nat) (codes scales : SlotArray) (scaled : Bool) :
    Staged → List HostAct
  | .ok => .copy stream slot codes key :: if scaled then [.copy stream slot scales key] else []
  | .codesFailed => []
  | .scalesFailed => [.copy stream slot codes key]

/-- The two `moe_stage` calls of a miss. -/
def stageCopies (env : CacheEnv Scores) (stream : CudaStream) (slot key : Nat)
    (gup down : Staged) : List HostAct :=
  tensorCopies stream slot key .gupCodes .gupBs env.gupScaled gup ++
    if gup = .ok then tensorCopies stream slot key .downCodes .downBs env.downScaled down else []

/-- The statements of `moe_resident`.  With the cache off it stages into the shared slot,
which is not one of the cache. -/
def moeResident (env : CacheEnv Scores) (query : Nat → Bool) (cache : ExpertCache Scores)
    (L e NE : Nat) (st : CudaStream) (gup down : Staged) : List HostAct :=
  let key := L * NE + e
  if cache.slots = 0 then
    []
  else
    match cache.map key with
    | none =>
        let victim := cache.moeEvVictim env
        [.invalidate victim (if st = .compute then none else some st), .unmap victim] ++
        (if cache.pend victim then [.await victim st, .clearPend victim] else []) ++
        stageCopies env st victim key gup down ++
        if gup = .ok ∧ down = .ok then
          .own victim key ::
            (if cache.dmapOn then [.recordFilled victim st, .issued victim key] else []) ++
            [.stamp victim, .touch key]
        else
          []
    | some slot =>
        (if cache.pend slot then
          [if cache.settled query slot then .clearPend slot else .await slot st]
        else []) ++
        [.stamp slot, .touch key]

/-- `moe_ready_now`; its callers run it with the cache on. -/
def moeReadyNow (env : CacheEnv Scores) (query : Nat → Bool) (cache : ExpertCache Scores)
    (L e NE : Nat) : Bool × ExpertCache Scores :=
  let key := L * NE + e
  match cache.map key with
  | some slot =>
      if cache.pend slot = false then (true, cache)
      else if cache.settled query slot then
        (true, { cache with pend := Function.update cache.pend slot false })
      else
        (false, missed cache key)
  | none => (false, missed cache key)
where
  /-- A miss the CPU serves counts as an access. -/
  missed (cache : ExpertCache Scores) (key : Nat) : ExpertCache Scores :=
    if cache.scores.isSome then moeEvTouch env { cache with clock := cache.clock + 1 } key
    else cache

/-- What `hf2_reap_locked` does with one queued slot. -/
def reapSlot (query : Nat → Bool) (cache : ExpertCache Scores) (slot : Nat) :
    ExpertCache Scores :=
  match cache.key slot with
  | none => { cache with unpub := cache.unpub.filter (· ≠ slot) }
  | some key =>
      match cache.pev slot with
      | none => { cache with unpub := cache.unpub.filter (· ≠ slot) }
      | some _ =>
          if cache.settled query slot then
            { cache with
              dmap := Function.update cache.dmap key (some slot)
              unpub := cache.unpub.filter (· ≠ slot) }
          else
            cache

/-- `hf2_reap_locked`. -/
def hf2Reap (query : Nat → Bool) (cache : ExpertCache Scores) : ExpertCache Scores :=
  if cache.dmapOn then cache.unpub.foldl (reapSlot query) cache else cache

/-- One turn of the scan over the admission ring: the copies in flight and the first free
place. -/
def scanRing (query : Nat → Bool) (scan : ExpertCache Scores × Nat × Option Nat) (index : Nat) :
    ExpertCache Scores × Nat × Option Nat :=
  let (cache, inflight, free) := scan
  match cache.ring.getD index none with
  | some slot =>
      if cache.pend slot && !cache.settled query slot then (cache, inflight + 1, free)
      else
        ({ cache with
            pend := Function.update cache.pend slot false
            ring := cache.ring.set index none }, inflight, free.or (some index))
  | none => (cache, inflight, free.or (some index))

/-- `moe_admit_async`, up to its victim, and the statements that follow; its callers run
it with the cache on. -/
def moeAdmitAsync (env : CacheEnv Scores) (query : Nat → Bool) (cache : ExpertCache Scores)
    (L e NE : Nat) (gup down : Staged) : ExpertCache Scores × List HostAct :=
  let key := L * NE + e
  if cache.slots = 0 ∨ (cache.map key).isSome ∨ env.admitCap = 0 then
    (cache, [])
  else
    let (scanned, inflight, free) :=
      (List.range env.admitCap).foldl (scanRing query) (cache, 0, none)
    let reaped := scanned.hf2Reap query
    match free with
    | none => (reaped, [])
    | some index =>
        if env.admitCap ≤ inflight then
          (reaped, [])
        else
          let victim := reaped.moeEvVictim env
          (reaped,
            [.invalidate victim (some .admission), .unmap victim, .awaitReady] ++
            (if reaped.pend victim then [.await victim .admission] else []) ++
            stageCopies env .admission victim key gup down ++
            if gup = .ok ∧ down = .ok then
              [.recordFilled victim .admission, .setPend victim, .own victim key, .stamp victim,
                .issued victim key, .ringPut index victim]
            else
              [.disown victim])

/-- A reap changes the published map and its queue only. -/
theorem reapSlot_changes (query : Nat → Bool) (cache : ExpertCache Scores) (slot : Nat) :
    ∃ dmap unpub, cache.reapSlot query slot = { cache with dmap, unpub } := by
  unfold reapSlot
  split
  · exact ⟨_, _, rfl⟩
  · split
    · exact ⟨_, _, rfl⟩
    · split
      · exact ⟨_, _, rfl⟩
      · exact ⟨_, _, rfl⟩

theorem hf2Reap_changes (query : Nat → Bool) (cache : ExpertCache Scores) :
    ∃ dmap unpub, cache.hf2Reap query = { cache with dmap, unpub } := by
  have each : ∀ (queue : List Nat) (cache : ExpertCache Scores),
      ∃ dmap unpub, queue.foldl (reapSlot query) cache = { cache with dmap, unpub } := by
    intro queue
    induction queue with
    | nil => exact fun cache => ⟨_, _, rfl⟩
    | cons slot rest inductionHypothesis =>
        intro cache
        obtain ⟨dmap, unpub, once⟩ := reapSlot_changes query cache slot
        obtain ⟨_, _, others⟩ := inductionHypothesis { cache with dmap, unpub }
        rw [List.foldl_cons, once, others]
        exact ⟨_, _, rfl⟩
  unfold hf2Reap
  split
  · exact each cache.unpub cache
  · exact ⟨_, _, rfl⟩

/-- A scan changes the marks of the copies in flight and the ring only. -/
theorem scanRing_changes (query : Nat → Bool) (indices : List Nat)
    (scan : ExpertCache Scores × Nat × Option Nat) :
    ∃ pend ring, (indices.foldl (scanRing query) scan).1 = { scan.1 with pend, ring } := by
  induction indices generalizing scan with
  | nil => exact ⟨_, _, rfl⟩
  | cons index rest inductionHypothesis =>
      have once : ∃ pend ring, (scanRing query scan index).1 = { scan.1 with pend, ring } := by
        unfold scanRing
        dsimp only
        split
        · split
          · exact ⟨_, _, rfl⟩
          · exact ⟨_, _, rfl⟩
        · exact ⟨_, _, rfl⟩
      obtain ⟨_, _, once⟩ := once
      obtain ⟨_, _, others⟩ := inductionHypothesis (scanRing query scan index)
      rw [List.foldl_cons, others, once]
      exact ⟨_, _, rfl⟩

theorem moeReadyNow_changes (env : CacheEnv Scores) (query : Nat → Bool) (cache : ExpertCache Scores)
    (L e NE : Nat) :
    ∃ pend clock scores, (cache.moeReadyNow env query L e NE).2 =
      { cache with pend, clock, scores } := by
  have missed : ∀ key, ∃ clock scores, moeReadyNow.missed env cache key =
      { cache with clock, scores } := by
    intro key
    unfold moeReadyNow.missed
    split
    · exact ⟨_, _, rfl⟩
    · exact ⟨_, _, rfl⟩
  obtain ⟨_, _, touched⟩ := missed (L * NE + e)
  unfold moeReadyNow
  dsimp only
  rw [touched]
  split
  · split
    · exact ⟨_, _, _, rfl⟩
    · split
      · exact ⟨_, _, _, rfl⟩
      · exact ⟨_, _, _, rfl⟩
  · exact ⟨_, _, _, rfl⟩

/-- Up to its victim an admission scans the ring and reaps. -/
theorem moeAdmitAsync_changes (env : CacheEnv Scores) (query : Nat → Bool)
    (cache : ExpertCache Scores) (L e NE : Nat) (gup down : Staged) :
    ∃ pend ring dmap unpub, (cache.moeAdmitAsync env query L e NE gup down).1 =
      { cache with pend, ring, dmap, unpub } := by
  unfold moeAdmitAsync
  dsimp only
  split
  · exact ⟨_, _, _, _, rfl⟩
  · obtain ⟨pend, ring, scanned⟩ :=
      scanRing_changes query (List.range env.admitCap) (cache, 0, none)
    generalize (List.range env.admitCap).foldl (scanRing query) (cache, 0, none) = result
      at scanned ⊢
    obtain ⟨scan, inflight, free⟩ := result
    dsimp only at scanned ⊢
    subst scanned
    obtain ⟨dmap, unpub, reaped⟩ := hf2Reap_changes query { cache with pend, ring }
    rw [reaped]
    split
    · exact ⟨_, _, _, _, rfl⟩
    · split
      · exact ⟨_, _, _, _, rfl⟩
      · exact ⟨_, _, _, _, rfl⟩

/-- What `moe_cache_init` finds and is told. -/
structure InitOutcome (Scores : Type) where
  /-- None where the cache stays off: too little memory, a failed allocation. -/
  slots : Nat
  ne : Nat
  events : Nat → Bool
  scores : Option Scores
  evGuard : Nat
  dmapOn : Bool

/-- `moe_cache_init`, behind `moe_cache_free`. -/
def moeCacheInit (cache : ExpertCache Scores) (outcome : InitOutcome Scores) :
    ExpertCache Scores :=
  { cache with
    slots := outcome.slots
    ne := outcome.ne
    map := fun _ => none
    key := fun _ => none
    use := fun _ => 0
    clock := 0
    scores := outcome.scores
    evGuard := outcome.evGuard
    pend := fun _ => false
    pev := fun slot => if outcome.events slot then some none else none
    dmapOn := outcome.dmapOn
    dmap := fun _ => none
    unpub := [] }

end ExpertCache

/-- A call into the cache, and the other statements of `g4_ffn_apply` it depends on. -/
inductive CacheCall (Scores : Type)
  | init (outcome : ExpertCache.InitOutcome Scores)
  | setLane (lane : Nat) (layer : Option Nat)
  | recordReady
  | resident (L e NE : Nat) (st : CudaStream) (gup down : Staged)
  | readyNow (L e NE : Nat)
  | admitAsync (L e NE : Nat) (gup down : Staged)
  | reap

namespace ExpertCache

/-- What a call does at once, and the statements it still has to run.  `query` answers
`cudaEventQuery` while it runs. -/
def enter (env : CacheEnv Scores) (query : Nat → Bool) (cache : ExpertCache Scores) :
    CacheCall Scores → ExpertCache Scores × List HostAct
  | .init outcome => (cache.moeCacheInit outcome, [])
  | .setLane lane layer => ({ cache with lane, laneL := layer }, [])
  | .recordReady =>
      ({ cache with
          admReady := some cache.device.ticket
          device := cache.device.record .compute }, [])
  | .resident L e NE st gup down => (cache, cache.moeResident env query L e NE st gup down)
  | .readyNow L e NE => ((cache.moeReadyNow env query L e NE).2, [])
  | .admitAsync L e NE gup down => cache.moeAdmitAsync env query L e NE gup down
  | .reap => (cache.hf2Reap query, [])

/-- A whole call. -/
def serve (env : CacheEnv Scores) (request : CacheCall Scores × (Nat → Bool))
    (cache : ExpertCache Scores) : ExpertCache Scores :=
  let (entered, acts) := cache.enter env request.2 request.1
  acts.foldl (perform env) entered

/-- A process before `moe_cache_init`. -/
def boot (env : CacheEnv Scores) : ExpertCache Scores where
  slots := 0
  ne := 0
  map := fun _ => none
  key := fun _ => none
  use := fun _ => 0
  clock := 0
  scores := none
  evGuard := 480
  lane := 0
  laneL := none
  pend := fun _ => false
  pev := fun _ => none
  ring := List.replicate env.admitCap none
  admReady := none
  dmapOn := false
  dmap := fun _ => none
  unpub := []
  device := Device.empty

end ExpertCache

/-- LRU eviction, block scales in both tensors. -/
def plainEnv : CacheEnv Unit where
  decay := { touch := fun _ _ _ => (), below := fun _ _ _ => false }
  gupScaled := true
  downScaled := true
  admitCap := 16
  mutantEarly := false

end KairosEngine.Cuda
