import KairosEngine.Library.Loop
import KairosEngine.Library.Precedence
import KairosEngine.Cuda.SlotTable

/-!
# The expert kernels of a layer

The part of `g4_ffn_apply` that resolves the routed experts, queues their kernels on the decode
stream and prefetches for the next layer, with the admissions of the CPU-miss path.  The kernels
of an expert are one operation of the decode stream that does no work on the slots; which slots
it reads is kept beside the log.  Serving modes only: the parity modes and the host-free MID
issue their own kernels.
-/

namespace KairosEngine.Cuda

open KairosEngine.Library Device

variable {Scores : Type}

/-- What a process fixes for its layers; `groupable` is what the grouped launch asks of the
tensors and buffers. -/
structure FfnEnv where
  overlap : Bool
  overlapPrefill : Bool
  prefetchPrefill : Bool
  grouped : Bool
  groupable : Bool
  lane : Nat
  nl : Nat

/-- One MID: the layer, its tokens and which experts got any. -/
structure FfnLayer where
  L : Nat
  nTok : Nat
  routed : Nat → Bool
  /-- `cpu_mode && cpu_in_ok`, both of which ask for one token. -/
  cpu : Bool

/-- What pass 1 keeps of an expert: `ovl_gu`, `ovl_dw` and `ovl_cp`. -/
structure Picked where
  slot : Nat
  copied : Bool

/-- A kernel in the log, the slot it was given and the expert it was given it for. -/
structure Kernel where
  ticket : Nat
  slot : Nat
  key : Nat

structure FfnHost (Scores : Type) where
  cache : ExpertCache Scores
  /-- The last records of `g_moe_ev`. -/
  moeEv : Nat → Option Nat
  /-- The last records of `g_moe_pf_ev`, by parity and expert. -/
  pfEv : Nat → Nat → Option Nat
  pfHas : Nat → Nat → Bool
  pfFor : Nat → Option Nat
  admq : List (Nat × Nat)
  /-- The variables of the call in hand. -/
  L : Nat
  active : List Nat
  ovl : Bool
  pass : Nat → Option Picked
  oncpu : Nat → Bool
  /-- The slots and experts that the next kernel is given. -/
  group : List (Nat × Nat)
  kernels : List Kernel

inductive FfnAct
  /-- `moe_admit_flush`, and one entry of its copy of the queue. -/
  | flush
  | admitOne (L e : Nat)
  | sync
  | setLane (lane : Nat) (layer : Option Nat)
  | ready
  | pass1 (i : Nat)
  | readyNow (k : Nat)
  /-- The tensors of one active expert, in the grouped launch or in the loop. -/
  | use (grouped : Bool) (i : Nat)
  | launch
  | admReady
  | endLane (lane : Nat)
  | pfOpen
  | prefetch (e : Nat)
  | pfClose

def ovlMax : Nat := 128

def grpMax : Nat := 8

def pfMinTok : Nat := 64

/-- The statements of a MID. -/
def FfnEnv.layerActs (ffn : FfnEnv) (slots ne : Nat) (layer : FfnLayer) : List FfnAct :=
  let active := (List.range ne).filter layer.routed
  let places := List.range active.length
  let cpuOn := layer.cpu && layer.nTok == 1
  let ovl := (layer.nTok == 1 || ffn.overlapPrefill) && ffn.overlap && decide (0 < slots) &&
    !cpuOn && decide (active.length ≤ ovlMax) && decide (4 * active.length ≤ slots)
  let grp := (ffn.grouped || cpuOn) && layer.nTok == 1 && ffn.groupable &&
    decide (4 * grpMax ≤ slots) && decide (0 < active.length) && decide (active.length ≤ grpMax)
  [.flush, .sync,
    .setLane ffn.lane (if 1 < layer.nTok ∧ 0 < slots ∧ 0 < ffn.lane then some layer.L else none)] ++
  (if ovl then .ready :: places.map .pass1 else []) ++
  (if grp then
    (if cpuOn then places.map .readyNow else []) ++ places.map (.use true) ++ [.launch] ++
      (if cpuOn then [.admReady] else [])
  else
    places.flatMap fun i => [.use false i, .launch]) ++
  [.endLane ffn.lane] ++
  (if ovl && decide (pfMinTok ≤ layer.nTok) && decide (layer.L + 1 < ffn.nl) &&
      decide (ne ≤ ovlMax) && ffn.prefetchPrefill then
    [.pfOpen] ++ (List.range ne).map .prefetch ++ [.pfClose]
  else [])

namespace FfnHost

def key (host : FfnHost Scores) (L e : Nat) : Nat := L * host.cache.ne + e

def expert (host : FfnHost Scores) (i : Nat) : Nat := host.active.getD i 0

/-- The loop waits for the prefetch event of its expert. -/
def pfAwaited (host : FfnHost Scores) (e : Nat) : Bool :=
  decide (host.pfFor (host.L % 2) = some host.L) && decide (e < ovlMax) && host.pfHas (host.L % 2) e

def record (host : FfnHost Scores) (stream : CudaStream) : FfnHost Scores :=
  { host with cache := { host.cache with device := host.cache.device.record stream } }

def wait (host : FfnHost Scores) (stream : CudaStream) (event : Option Nat) : FfnHost Scores :=
  { host with cache := { host.cache with device := host.cache.device.wait stream event } }

def ticket (host : FfnHost Scores) : Nat := host.cache.device.ticket

def serve (env : CacheEnv Scores) (query : Nat → Bool) (call : CacheCall Scores)
    (host : FfnHost Scores) : FfnHost Scores :=
  { host with cache := host.cache.serve env (call, query) }

/-- The variables of a new call. -/
def enter (host : FfnHost Scores) (layer : FfnLayer) : FfnHost Scores :=
  { host with
    L := layer.L
    active := (List.range host.cache.ne).filter layer.routed
    ovl := false
    pass := fun _ => none
    oncpu := fun _ => false
    group := [] }

/-- The tensors of an active expert, by the grouped launch or the loop. -/
def resolve (env : CacheEnv Scores) (query : Nat → Bool) (i : Nat) (host : FfnHost Scores) :
    FfnHost Scores × Option Nat :=
  let e := host.expert i
  if host.ovl then
    match host.pass i with
    | some picked =>
        (if picked.copied then host.wait .compute (host.moeEv i) else host, some picked.slot)
    | none => (host, none)
  else
    let served := host.serve env query (.resident host.L e host.cache.ne .compute .ok .ok)
    (served, served.cache.map (host.key host.L e))

/-- One statement, and what it puts before the rest. -/
def act (env : CacheEnv Scores) (query : Nat → Bool) (host : FfnHost Scores) :
    FfnAct → FfnHost Scores × List FfnAct
  | .flush =>
      ({ host.serve env query .reap with admq := [] },
        host.admq.map fun entry => .admitOne entry.1 entry.2)
  | .admitOne L e => (host.serve env query (.admitAsync L e host.cache.ne .ok .ok), [])
  | .sync => (host, [])
  | .setLane lane layer => (host.serve env query (.setLane lane layer), [])
  | .ready =>
      ({ (host.record .compute).wait .overlap (some host.ticket) with ovl := true }, [])
  | .pass1 i =>
      let key := host.key host.L (host.expert i)
      let missed := (host.cache.map key).isNone
      let served := host.serve env query
        (.resident host.L (host.expert i) host.cache.ne .overlap .ok .ok)
      match served.cache.map key with
      | none => (served, [])
      | some slot =>
          let picked := { served with
            pass := Function.update served.pass i (some { slot, copied := missed }) }
          if missed then
            ({ picked.record .overlap with
                moeEv := Function.update picked.moeEv i (some picked.ticket) }, [])
          else
            (picked, [])
  | .readyNow k =>
      let (ready, cache) := host.cache.moeReadyNow env query host.L (host.expert k) host.cache.ne
      ({ host with cache, oncpu := Function.update host.oncpu k (!ready) }, [])
  | .use grouped i =>
      if grouped && host.oncpu i then (host, [])
      else
        let e := host.expert i
        let (resolved, slot) := host.resolve env query i
        let awaited :=
          if !grouped && host.pfAwaited e then
            resolved.wait .compute (resolved.pfEv (host.L % 2) e)
          else resolved
        match slot with
        | some slot => ({ awaited with group := awaited.group ++ [(slot, host.key host.L e)] }, [])
        | none => (awaited, [])
  | .launch =>
      if host.group.isEmpty then (host, [])
      else
        ({ host.record .compute with
            group := []
            kernels := host.kernels ++ host.group.map fun given =>
              { ticket := host.ticket, slot := given.1, key := given.2 } }, [])
  | .admReady =>
      let missed := ((List.range host.active.length).filter host.oncpu).map host.expert
      if missed.isEmpty then (host, [])
      else
        ({ host.serve env query .recordReady with
            admq := (host.admq ++ missed.map fun e => (host.L, e)).take 64 }, [])
  | .endLane lane => (host.serve env query (.setLane lane none), [])
  | .pfOpen =>
      ({ host with pfHas := Function.update host.pfHas ((host.L + 1) % 2) fun _ => false }, [])
  | .prefetch e =>
      if (host.cache.map (host.key (host.L + 1) e)).isSome then (host, [])
      else
        let b := (host.L + 1) % 2
        let served := host.serve env query
          (.resident (host.L + 1) e host.cache.ne .overlap .ok .ok)
        ({ served.record .overlap with
            pfEv := Function.update served.pfEv b
              (Function.update (served.pfEv b) e (some served.ticket))
            pfHas := Function.update served.pfHas b (Function.update (served.pfHas b) e true) }, [])
  | .pfClose =>
      ({ host with pfFor := Function.update host.pfFor ((host.L + 1) % 2) (some (host.L + 1)) }, [])

/-- A process that has set up its cache. -/
def opened (env : CacheEnv Scores) (outcome : ExpertCache.InitOutcome Scores) :
    FfnHost Scores where
  cache := (ExpertCache.boot env).moeCacheInit outcome
  moeEv := fun _ => none
  pfEv := fun _ _ => none
  pfHas := fun _ _ => false
  pfFor := fun _ => none
  admq := []
  L := 0
  active := []
  ovl := false
  pass := fun _ => none
  oncpu := fun _ => false
  group := []
  kernels := []

/-- When the kernel runs, each array of its slot was last written by the copy for its expert. -/
def ReadsOwn (env : CacheEnv Scores) (host : FfnHost Scores) (index : Nat) : Prop :=
  ∀ kernel ∈ host.kernels, kernel.ticket = index → ∀ array, env.fills array = true →
    host.cache.device.held (ExpertWork.into kernel.slot array) =
      some (.copy kernel.slot array kernel.key)

end FfnHost

/-- Everything issued to the stream has run. -/
def drained {Stream Work : Type} [DecidableEq Stream] (device : Device Stream Work)
    (stream : Stream) : Bool :=
  (List.range device.log.length).all fun index =>
    device.log[index]?.all (fun operation => decide (operation.stream ≠ stream)) ||
      decide (index ∈ device.ran)

/-- The host thread and the statements of its call that are left. -/
structure FfnMachine (Scores : Type) where
  host : FfnHost Scores
  todo : List FfnAct

inductive FfnAction
  | device (index : Nat)
  | layer (layer : FfnLayer)
  | act (query : Nat → Bool)

/-- One action, where it is possible. -/
def FfnMachine.step (env : CacheEnv Scores) (ffn : FfnEnv) (action : FfnAction)
    (machine : FfnMachine Scores) : FfnMachine Scores :=
  match action, machine.todo with
  | .device index, _ =>
      if machine.host.cache.device.runnable index then
        { machine with
          host := { machine.host with
            cache := { machine.host.cache with device := machine.host.cache.device.run index } } }
      else machine
  | .layer layer, [] =>
      { host := machine.host.enter layer
        todo := ffn.layerActs machine.host.cache.slots machine.host.cache.ne layer }
  | .layer _, _ :: _ => machine
  | .act _, [] => machine
  | .act _, .sync :: rest =>
      if drained machine.host.cache.device .compute then { machine with todo := rest } else machine
  | .act query, act :: rest =>
      let (host, first) := machine.host.act env
        (fun event => query event && decide (event ∈ machine.host.cache.device.ran)) act
      { host, todo := first ++ rest }

end KairosEngine.Cuda
