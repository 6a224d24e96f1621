import Mathlib.Data.UInt
import KairosEngine.Library.Shares
import KairosEngine.Library.TaskPool

/-!
# The worker threads of the host's experts

Calls of `sp_moe_cpu_gemv` and `sp_moe_cpu_expert` come from any thread; one at a time holds
`g_cpu_lk`, publishes a job, raises `g_gen`, wakes the workers, does the share of thread 0 and spins
on `g_done`.  A worker spins, may go to sleep on `g_gen`, and takes a share when the generation moves.
Steps of all of them interleave.
-/

namespace KairosEngine.Cuda

open KairosEngine.Library

/-! ## The threads -/

/-- What a job is: how many rows, the `y` they go to, which of the static activations it reads, and
the number of a row. -/
structure PoolWork (Job Act Dest Value : Type) where
  rows : Job → Nat
  dest : Job → Dest
  act : Job → Nat
  row : Job → Act → Nat → Value

/-- One run of the pool: the activations are prepared from what earlier runs left. -/
structure PoolTask (Job Act Dest Value : Type) where
  job : Job
  prepare : (Dest → Nat → Value) → Act

inductive WorkerPc (Job : Type)
  /-- In `while (g_gen == seen)`. -/
  | spinning
  /-- In `WaitOnAddress`. -/
  | parked
  /-- Behind the loop, in front of `seen = g_gen`. -/
  | leaving
  /-- In front of `run_share`. -/
  | taking
  | running (job : Job) (next last : Nat)
  /-- In front of `InterlockedIncrement(&g_done)`. -/
  | counting

structure Worker (Job : Type) where
  seen : UInt32
  pc : WorkerPc Job

inductive CallerPc (Job : Type)
  | preparing
  /-- Writing `g_job`. -/
  | filling
  /-- In front of `InterlockedExchange(&g_done, 0)`. -/
  | clearing
  /-- In front of `InterlockedIncrement(&g_gen)`. -/
  | raising
  /-- In front of `WakeByAddressAll`. -/
  | waking
  /-- In front of `run_share(0)`. -/
  | starting
  | running (job : Job) (next last : Nat)
  /-- In `while (g_done < g_n - 1)`. -/
  | awaiting

/-- The call inside `g_cpu_lk`: its run of the pool, and the runs behind that. -/
structure Holder (Job Act Dest Value : Type) where
  task : PoolTask Job Act Dest Value
  rest : List (PoolTask Job Act Dest Value)
  pc : CallerPc Job

structure PoolState (Job Act Dest Value : Type) where
  gen : UInt32
  done : Nat
  job : Job
  acts : Nat → Act
  memory : Dest → Nat → Value
  workers : List (Worker Job)
  holder : Option (Holder Job Act Dest Value)
  /-- The calls in front of the lock. -/
  calls : List (List (PoolTask Job Act Dest Value))
  /-- The runs that are over, in order. -/
  served : List (PoolTask Job Act Dest Value)

section Steps

variable {Job Act Dest Value : Type}

def Worker.wake (worker : Worker Job) : Worker Job :=
  match worker.pc with
  | .parked => { worker with pc := .spinning }
  | _ => worker

/-- A call goes on to its next run, or releases the lock. -/
def holderOf : List (PoolTask Job Act Dest Value) → Option (Holder Job Act Dest Value)
  | [] => none
  | task :: rest => some ⟨task, rest, .preparing⟩

namespace PoolState

variable (state : PoolState Job Act Dest Value)

/-- `g_n`. -/
def threads : Nat := state.workers.length + 1

/-- A worker goes on. -/
def move (i : Nat) (worker : Worker Job) : PoolState Job Act Dest Value :=
  { state with workers := state.workers.modify i fun _ => worker }

/-- The caller goes on. -/
def goTo (holder : Holder Job Act Dest Value) (pc : CallerPc Job) : PoolState Job Act Dest Value :=
  { state with holder := some { holder with pc := pc } }

end PoolState

variable [DecidableEq Dest] (work : PoolWork Job Act Dest Value)

/-- `y[j] = ...` of `gemv_rows_exact` or `gemv_rows`. -/
def PoolWork.store (memory : Dest → Nat → Value) (job : Job) (act : Act) (j : Nat) (dest : Dest)
    (i : Nat) : Value :=
  if dest = work.dest job ∧ i = j then work.row job act j else memory dest i

/-- A step of a call. -/
inductive CallerStep (state : PoolState Job Act Dest Value) : PoolState Job Act Dest Value → Prop
  | call (tasks : List (PoolTask Job Act Dest Value)) :
      CallerStep state { state with calls := tasks :: state.calls }
  | acquire {index : Nat} {tasks : List (PoolTask Job Act Dest Value)} (free : state.holder = none)
      (found : state.calls[index]? = some tasks) :
      CallerStep state
        { state with calls := state.calls.eraseIdx index, holder := holderOf tasks }
  /-- Activations that are half written. -/
  | scribbleAct {holder} (held : state.holder = some holder) (here : holder.pc = .preparing)
      (act : Act) :
      CallerStep state
        { state with acts := Function.update state.acts (work.act holder.task.job) act }
  | prepared {holder} (held : state.holder = some holder) (here : holder.pc = .preparing) :
      CallerStep state { state.goTo holder .filling with
        acts := Function.update state.acts (work.act holder.task.job)
          (holder.task.prepare state.memory) }
  /-- A `g_job` that is half written. -/
  | scribbleJob {holder} (held : state.holder = some holder) (here : holder.pc = .filling)
      (job : Job) : CallerStep state { state with job := job }
  | filled {holder} (held : state.holder = some holder) (here : holder.pc = .filling) :
      CallerStep state { state.goTo holder .clearing with job := holder.task.job }
  | cleared {holder} (held : state.holder = some holder) (here : holder.pc = .clearing) :
      CallerStep state { state.goTo holder .raising with done := 0 }
  | raised {holder} (held : state.holder = some holder) (here : holder.pc = .raising) :
      CallerStep state { state.goTo holder .waking with gen := state.gen + 1 }
  | woken {holder} (held : state.holder = some holder) (here : holder.pc = .waking) :
      CallerStep state { state.goTo holder .starting with workers := state.workers.map Worker.wake }
  | start {holder} (held : state.holder = some holder) (here : holder.pc = .starting) :
      CallerStep state (state.goTo holder (.running state.job
        (shareStart (work.rows state.job) state.threads 0)
        (shareStart (work.rows state.job) state.threads 1)))
  | row {holder} {job : Job} {next last : Nat} (held : state.holder = some holder)
      (here : holder.pc = .running job next last) (more : next < last) :
      CallerStep state { state.goTo holder (.running job (next + 1) last) with
        memory := work.store state.memory job (state.acts (work.act job)) next }
  | finish {holder} {job : Job} {next last : Nat} (held : state.holder = some holder)
      (here : holder.pc = .running job next last) (ended : ¬next < last) :
      CallerStep state (state.goTo holder .awaiting)
  | awaited {holder} (held : state.holder = some holder) (here : holder.pc = .awaiting)
      (all : ¬state.done < state.threads - 1) :
      CallerStep state { state with
        holder := holderOf holder.rest, served := state.served ++ [holder.task] }

/-- A step of the worker at a place of the list; it is the thread behind that place. -/
inductive WorkerStep (state : PoolState Job Act Dest Value) (i : Nat) :
    PoolState Job Act Dest Value → Prop
  | leave {seen : UInt32} (found : state.workers[i]? = some ⟨seen, .spinning⟩)
      (differs : state.gen ≠ seen) : WorkerStep state i (state.move i ⟨seen, .leaving⟩)
  /-- `WaitOnAddress` compares and goes to sleep in one step. -/
  | park {seen : UInt32} (found : state.workers[i]? = some ⟨seen, .spinning⟩)
      (same : state.gen = seen) : WorkerStep state i (state.move i ⟨seen, .parked⟩)
  /-- It may return for no reason. -/
  | unpark {seen : UInt32} (found : state.workers[i]? = some ⟨seen, .parked⟩) :
      WorkerStep state i (state.move i ⟨seen, .spinning⟩)
  | adopt {seen : UInt32} (found : state.workers[i]? = some ⟨seen, .leaving⟩) :
      WorkerStep state i (state.move i ⟨state.gen, .taking⟩)
  | take {seen : UInt32} (found : state.workers[i]? = some ⟨seen, .taking⟩) :
      WorkerStep state i (state.move i ⟨seen, .running state.job
        (shareStart (work.rows state.job) state.threads (i + 1))
        (shareStart (work.rows state.job) state.threads (i + 2))⟩)
  | row {seen : UInt32} {job : Job} {next last : Nat}
      (found : state.workers[i]? = some ⟨seen, .running job next last⟩) (more : next < last) :
      WorkerStep state i { state.move i ⟨seen, .running job (next + 1) last⟩ with
        memory := work.store state.memory job (state.acts (work.act job)) next }
  | finish {seen : UInt32} {job : Job} {next last : Nat}
      (found : state.workers[i]? = some ⟨seen, .running job next last⟩) (ended : ¬next < last) :
      WorkerStep state i (state.move i ⟨seen, .counting⟩)
  | count {seen : UInt32} (found : state.workers[i]? = some ⟨seen, .counting⟩) :
      WorkerStep state i { state.move i ⟨seen, .spinning⟩ with done := state.done + 1 }

/-- Any thread may take the next step. -/
inductive PoolStep (state next : PoolState Job Act Dest Value) : Prop
  | caller (step : CallerStep work state next)
  | worker (i : Nat) (step : WorkerStep work state i next)

/-- Where the steps lead from the start: the threads are there, and nothing is called yet. -/
inductive PoolReached (acts : Nat → Act) (memory : Dest → Nat → Value) (workers : Nat) :
    PoolState Job Act Dest Value → Prop
  | init (job : Job) : PoolReached acts memory workers
      ⟨0, 0, job, acts, memory, List.replicate workers ⟨0, .spinning⟩, none, [], []⟩
  | step {state next : PoolState Job Act Dest Value} (reached : PoolReached acts memory workers state)
      (step : PoolStep work state next) : PoolReached acts memory workers next

/-! ## One thread -/

/-- A run on one thread: all rows, and nothing else. -/
def PoolWork.apply (memory : Dest → Nat → Value) (task : PoolTask Job Act Dest Value) (dest : Dest)
    (j : Nat) : Value :=
  if dest = work.dest task.job ∧ j < work.rows task.job then
    work.row task.job (task.prepare memory) j
  else memory dest j

end Steps

/-! ## The invariant -/

section Workers

variable {Job : Type}

/-- How far a worker is in its share, from `start` to `stop`, of the run of a generation. -/
def Worker.reached (gen : UInt32) (start stop : Nat) (worker : Worker Job) : Nat :=
  match worker.pc with
  | .spinning | .parked => if worker.seen = gen then stop else start
  | .leaving | .taking => start
  | .running _ next _ => next
  | .counting => stop

/-- A worker that has counted itself, or has not been called. -/
def Worker.finished (gen : UInt32) (worker : Worker Job) : Bool :=
  match worker.pc with
  | .spinning | .parked => decide (worker.seen = gen)
  | _ => false

def Worker.Idle (gen : UInt32) (worker : Worker Job) : Prop :=
  worker.seen = gen ∧ (worker.pc = .spinning ∨ worker.pc = .parked)

/-- Where a worker can be during a run; it may be asleep without having seen the generation only
until the caller has woken the workers. -/
def Worker.Serves (gen : UInt32) (job : Job) (start stop : Nat) (asleep : Prop)
    (worker : Worker Job) : Prop :=
  match worker.pc with
  | .spinning => worker.seen = gen ∨ worker.seen + 1 = gen
  | .parked => worker.seen = gen ∨ asleep ∧ worker.seen + 1 = gen
  | .leaving => worker.seen + 1 = gen
  | .taking | .counting => worker.seen = gen
  | .running own next last =>
      worker.seen = gen ∧ own = job ∧ last = stop ∧ start ≤ next ∧ next ≤ stop

variable {gen : UInt32} {job : Job} {start stop : Nat} {asleep : Prop} {worker : Worker Job}

theorem next_ne (gen : UInt32) : gen ≠ gen + 1 := by
  intro same
  have values := congrArg UInt32.toNat same
  rw [UInt32.toNat_add] at values
  have below := gen.toNat_lt
  have one : (1 : UInt32).toNat = 1 := rfl
  omega

theorem Worker.finished_iff : worker.finished gen = true ↔ worker.Idle gen := by
  obtain ⟨seen, pc⟩ := worker
  cases pc <;> simp [Worker.finished, Worker.Idle]

theorem Worker.reached_finished (ended : worker.finished gen = true) :
    worker.reached gen start stop = stop := by
  obtain ⟨seen, parked | spinning⟩ := Worker.finished_iff.mp ended
  · simp [Worker.reached, parked, seen]
  · simp [Worker.reached, spinning, seen]

/-- The workers that waited for the generation have it in front of them. -/
theorem Worker.Idle.raised (idle : worker.Idle gen) :
    worker.Serves (gen + 1) job start stop True ∧ worker.finished (gen + 1) = false ∧
      worker.reached (gen + 1) start stop = start := by
  obtain ⟨rfl, spinning | parked⟩ := idle
  · simp [Worker.Serves, Worker.finished, Worker.reached, spinning]
  · simp [Worker.Serves, Worker.finished, Worker.reached, parked]

theorem Worker.Serves.wake (serves : worker.Serves gen job start stop True) :
    worker.wake.Serves gen job start stop False ∧
      worker.wake.finished gen = worker.finished gen ∧
      worker.wake.reached gen start stop = worker.reached gen start stop := by
  obtain ⟨seen, pc⟩ := worker
  cases pc with
  | parked => exact ⟨serves.imp_right And.right, rfl, rfl⟩
  | spinning => exact ⟨serves, rfl, rfl⟩
  | leaving => exact ⟨serves, rfl, rfl⟩
  | taking => exact ⟨serves, rfl, rfl⟩
  | running own next last => exact ⟨serves, rfl, rfl⟩
  | counting => exact ⟨serves, rfl, rfl⟩

theorem Worker.Serves.bounds (order : start ≤ stop)
    (serves : worker.Serves gen job start stop asleep) :
    start ≤ worker.reached gen start stop ∧ worker.reached gen start stop ≤ stop := by
  obtain ⟨seen, pc⟩ := worker
  cases pc with
  | running own next last => exact ⟨serves.2.2.2.1, serves.2.2.2.2⟩
  | spinning => simp only [Worker.reached]; split <;> omega
  | parked => simp only [Worker.reached]; split <;> omega
  | leaving => exact ⟨Nat.le_refl _, order⟩
  | taking => exact ⟨Nat.le_refl _, order⟩
  | counting => exact ⟨order, Nat.le_refl _⟩

end Workers

section Memory

variable {Dest Value : Type}

/-- A memory that has the values of a run in the rows that are written, and is otherwise what it was
before. -/
structure Overlaid (base : Dest → Nat → Value) (dest : Dest) (value : Nat → Value)
    (written : Nat → Prop) (memory : Dest → Nat → Value) : Prop where
  there : ∀ j, written j → memory dest j = value j
  kept : ∀ other j, ¬(other = dest ∧ written j) → memory other j = base other j

variable {base memory : Dest → Nat → Value} {dest : Dest} {value : Nat → Value}
  {written later : Nat → Prop}

theorem Overlaid.congr (overlaid : Overlaid base dest value written memory)
    (same : ∀ j, later j ↔ written j) : Overlaid base dest value later memory := by
  obtain rfl : later = written := funext fun j => propext (same j)
  exact overlaid

theorem overlaid_none (none : ∀ j, ¬written j) : Overlaid base dest value written base :=
  ⟨fun j written => absurd written (none j), fun _ _ _ => rfl⟩

end Memory

section Invariant

variable {Job Act Dest Value : Type} (work : PoolWork Job Act Dest Value)

/-- Nobody works: every worker waits for the next generation. -/
structure PoolState.Quiet (state : PoolState Job Act Dest Value) (base : Dest → Nat → Value) :
    Prop where
  idle : ∀ worker ∈ state.workers, worker.Idle state.gen
  memory : state.memory = base

/-- The first row of a thread. -/
def PoolState.first (state : PoolState Job Act Dest Value) (task : PoolTask Job Act Dest Value)
    (t : Nat) : Nat :=
  shareStart (work.rows task.job) state.threads t

/-- The rows that the worker at a place has written. -/
def PoolState.Wrote (state : PoolState Job Act Dest Value) (task : PoolTask Job Act Dest Value)
    (i j : Nat) : Prop :=
  ∃ worker, state.workers[i]? = some worker ∧ state.first work task (i + 1) ≤ j ∧
    j < worker.reached state.gen (state.first work task (i + 1)) (state.first work task (i + 2))

/-- The rows of the run that are written, the caller's below `own`. -/
def PoolState.Written (state : PoolState Job Act Dest Value) (task : PoolTask Job Act Dest Value)
    (own j : Nat) : Prop :=
  j < own ∨ ∃ i, state.Wrote work task i j

/-- A run is on. -/
structure PoolState.Runs (state : PoolState Job Act Dest Value) (task : PoolTask Job Act Dest Value)
    (base : Dest → Nat → Value) (asleep : Prop) (own : Nat) : Prop where
  job : state.job = task.job
  act : state.acts (work.act task.job) = task.prepare base
  serves : ∀ i (worker : Worker Job), state.workers[i]? = some worker →
    worker.Serves state.gen task.job
    (state.first work task (i + 1)) (state.first work task (i + 2)) asleep
  counted : state.done = state.workers.countP (Worker.finished state.gen)
  memory : Overlaid base (work.dest task.job) (work.row task.job (task.prepare base))
    (state.Written work task own) state.memory

/-- What holds where the call with the lock is, over the memory that the runs before it left. -/
def Holder.Inv (holder : Holder Job Act Dest Value) (state : PoolState Job Act Dest Value)
    (base : Dest → Nat → Value) : Prop :=
  match holder.pc with
  | .preparing => state.Quiet base
  | .filling => state.Quiet base ∧ state.acts (work.act holder.task.job) = holder.task.prepare base
  | .clearing => state.Quiet base ∧
      state.acts (work.act holder.task.job) = holder.task.prepare base ∧ state.job = holder.task.job
  | .raising => state.Quiet base ∧
      state.acts (work.act holder.task.job) = holder.task.prepare base ∧
        state.job = holder.task.job ∧ state.done = 0
  | .waking => state.Runs work holder.task base True 0
  | .starting => state.Runs work holder.task base False 0
  | .running job next last => state.Runs work holder.task base False next ∧ job = holder.task.job ∧
      last = state.first work holder.task 1 ∧ next ≤ last
  | .awaiting => state.Runs work holder.task base False (state.first work holder.task 1)

/-- The invariant; `base` is what the served runs leave, one after the other. -/
def PoolState.Inv (state : PoolState Job Act Dest Value) (base : Dest → Nat → Value) : Prop :=
  match state.holder with
  | none => state.Quiet base
  | some holder => holder.Inv work state base

variable {work} {state next : PoolState Job Act Dest Value} {i : Nat} {worker moved : Worker Job}

@[simp] theorem PoolState.threads_move : (state.move i moved).threads = state.threads := by
  rw [threads, threads, move, List.length_modify]

@[simp] theorem PoolState.first_move (task : PoolTask Job Act Dest Value) (t : Nat) :
    (state.move i moved).first work task t = state.first work task t := by
  rw [first, first, threads_move]

theorem PoolState.getElem?_move (found : state.workers[i]? = some worker) (k : Nat) :
    (state.move i moved).workers[k]? = if k = i then some moved else state.workers[k]? := by
  by_cases here : i = k
  · subst here
    rw [if_pos rfl, move, List.getElem?_modify_eq, found]
    rfl
  · rw [if_neg (Ne.symm here), move, List.getElem?_modify_ne _ _ here]

theorem PoolState.mem_move {other : Worker Job} (member : other ∈ (state.move i moved).workers) :
    other ∈ state.workers ∨ other = moved := by
  rcases mem_modify_cases member with stays | ⟨_, _, rfl⟩
  · exact Or.inl stays
  · exact Or.inr rfl

/-! ## The workers keep it -/

/-- While nobody works, the workers only go to sleep and wake up. -/
theorem PoolState.Quiet.workerStep [DecidableEq Dest] {base : Dest → Nat → Value} (quiet : state.Quiet base)
    (step : WorkerStep work state i next) :
    next.Quiet base ∧ next.acts = state.acts ∧ next.job = state.job ∧ next.done = state.done := by
  have idle : ∀ {seen pc}, state.workers[i]? = some ⟨seen, pc⟩ →
      seen = state.gen ∧ (pc = .spinning ∨ pc = .parked) :=
    fun found => quiet.idle _ (List.mem_of_getElem? found)
  cases step with
  | leave found differs => exact absurd (idle found).1.symm differs
  | park found same =>
      refine ⟨⟨fun worker member => ?_, quiet.memory⟩, rfl, rfl, rfl⟩
      rcases mem_move member with stays | rfl
      · exact quiet.idle worker stays
      · exact ⟨same.symm, Or.inr rfl⟩
  | unpark found =>
      refine ⟨⟨fun worker member => ?_, quiet.memory⟩, rfl, rfl, rfl⟩
      rcases mem_move member with stays | rfl
      · exact quiet.idle worker stays
      · exact ⟨(idle found).1, Or.inl rfl⟩
  | adopt found => exact absurd (idle found).2 (by simp)
  | take found => exact absurd (idle found).2 (by simp)
  | row found more => exact absurd (idle found).2 (by simp)
  | finish found ended => exact absurd (idle found).2 (by simp)
  | count found => exact absurd (idle found).2 (by simp)

section Runs

variable {task : PoolTask Job Act Dest Value} {base : Dest → Nat → Value} {asleep : Prop} {own : Nat}

theorem PoolState.Runs.serves_move (runs : state.Runs work task base asleep own)
    (found : state.workers[i]? = some worker)
    (serves : moved.Serves state.gen task.job (state.first work task (i + 1))
      (state.first work task (i + 2)) asleep) (k : Nat) (other : Worker Job)
    (present : (state.move i moved).workers[k]? = some other) :
    other.Serves state.gen task.job ((state.move i moved).first work task (k + 1))
      ((state.move i moved).first work task (k + 2)) asleep := by
  rw [getElem?_move found] at present
  rw [first_move, first_move]
  split at present
  next here =>
    cases present
    exact here ▸ serves
  next => exact runs.serves k other present

theorem PoolState.wrote_move (found : state.workers[i]? = some worker) (k j : Nat) :
    (state.move i moved).Wrote work task k j ↔
      if k = i then state.first work task (i + 1) ≤ j ∧ j < moved.reached state.gen
        (state.first work task (i + 1)) (state.first work task (i + 2))
      else state.Wrote work task k j := by
  unfold Wrote
  simp only [getElem?_move found, first_move]
  by_cases here : k = i
  · subst here
    simp only [if_true, Option.some.injEq, exists_eq_left']
    rfl
  · simp only [if_neg here]
    rfl

theorem PoolState.wrote_iff (found : state.workers[i]? = some worker) (j : Nat) :
    state.Wrote work task i j ↔ state.first work task (i + 1) ≤ j ∧ j < worker.reached state.gen
      (state.first work task (i + 1)) (state.first work task (i + 2)) := by
  rw [Wrote, found]
  simp only [Option.some.injEq, exists_eq_left']

/-- A worker that goes on without writing a row or counting itself. -/
theorem PoolState.Runs.move (runs : state.Runs work task base asleep own)
    (found : state.workers[i]? = some worker)
    (serves : moved.Serves state.gen task.job (state.first work task (i + 1))
      (state.first work task (i + 2)) asleep)
    (finished : moved.finished state.gen = worker.finished state.gen)
    (reached : moved.reached state.gen (state.first work task (i + 1))
      (state.first work task (i + 2)) = worker.reached state.gen (state.first work task (i + 1))
        (state.first work task (i + 2))) :
    (state.move i moved).Runs work task base asleep own := by
  constructor
  · exact runs.job
  · exact runs.act
  · exact runs.serves_move found serves
  · have balance := @countP_modify _ _ _ (fun _ => moved) _ (Worker.finished state.gen) found
    rw [finished] at balance
    exact runs.counted.trans (Nat.add_right_cancel balance).symm
  · apply runs.memory.congr
    intro j
    refine or_congr_right (exists_congr fun k => ?_)
    rw [wrote_move found]
    split
    next here =>
      subst here
      rw [wrote_iff found, reached]
    next => rfl

variable [DecidableEq Dest]

/-- A row of the run lands. -/
theorem PoolState.Runs.store (runs : state.Runs work task base asleep own) {job : Job} {row : Nat}
    (same : job = task.job) : Overlaid base (work.dest task.job)
      (work.row task.job (task.prepare base)) (fun j => state.Written work task own j ∨ j = row)
      (work.store state.memory job (state.acts (work.act job)) row) := by
  subst same
  constructor
  · intro j written
    rw [PoolWork.store, runs.act]
    by_cases here : j = row
    · rw [if_pos ⟨rfl, here⟩, here]
    · rw [if_neg fun both => here both.2]
      exact runs.memory.there j (written.resolve_right here)
  · intro other j outside
    have elsewhere : ¬(other = work.dest task.job ∧ j = row) :=
      fun both => outside ⟨both.1, Or.inr both.2⟩
    rw [PoolWork.store, if_neg elsewhere]
    exact runs.memory.kept other j fun both => outside ⟨both.1, Or.inl both.2⟩

/-- The worker goes on to its next row. -/
theorem PoolState.Runs.rowStep (runs : state.Runs work task base asleep own) {seen : UInt32}
    {job : Job} {row last : Nat}
    (found : state.workers[i]? = some ⟨seen, .running job row last⟩) (more : row < last) :
    PoolState.Runs work { state.move i ⟨seen, .running job (row + 1) last⟩ with
      memory := work.store state.memory job (state.acts (work.act job)) row } task base asleep own := by
  obtain ⟨present, same, stop, above, _⟩ := runs.serves i _ found
  constructor
  · exact runs.job
  · exact runs.act
  · exact runs.serves_move found ⟨present, same, stop, by omega, by omega⟩
  · have balance := @countP_modify _ _ _
      (fun _ => (⟨seen, .running job (row + 1) last⟩ : Worker Job)) _ (Worker.finished state.gen)
      found
    exact runs.counted.trans (Nat.add_right_cancel balance).symm
  · apply (runs.store same).congr
    intro j
    have wrote : ∀ k, (state.move i ⟨seen, .running job (row + 1) last⟩).Wrote work task k j ↔
        state.Wrote work task k j ∨ k = i ∧ j = row := by
      intro k
      rw [wrote_move found]
      split
      next here =>
        subst here
        rw [wrote_iff found]
        simp only [Worker.reached, true_and]
        omega
      next elsewhere => simp only [elsewhere, false_and, or_false]
    have some : (∃ k, (state.move i ⟨seen, .running job (row + 1) last⟩).Wrote work task k j) ↔
        (∃ k, state.Wrote work task k j) ∨ j = row := by
      simp only [wrote, exists_or, exists_eq_left]
    exact (or_congr_right some).trans or_assoc.symm

/-- Whatever a worker does during a run, the run goes on. -/
theorem PoolState.Runs.workerStep (runs : state.Runs work task base asleep own)
    (step : WorkerStep work state i next) : next.Runs work task base asleep own := by
  have order : ∀ t, state.first work task t ≤ state.first work task (t + 1) :=
    fun t => shareStart_mono (Nat.le_succ t)
  cases step with
  | leave found differs =>
      have called := (runs.serves i _ found).resolve_left fun same => differs same.symm
      apply runs.move found
      · exact called
      · exact (decide_eq_false fun same => differs same.symm).symm
      · exact (if_neg fun same => differs same.symm).symm
  | park found same => exact runs.move found (Or.inl same.symm) rfl rfl
  | unpark found =>
      exact runs.move found ((runs.serves i _ found).imp_right And.right) rfl rfl
  | adopt found => exact runs.move found (show state.gen = state.gen from rfl) rfl rfl
  | take found =>
      have present := runs.serves i _ found
      have start : shareStart (work.rows state.job) state.threads (i + 1) =
          state.first work task (i + 1) := by rw [first, runs.job]
      have stop : shareStart (work.rows state.job) state.threads (i + 2) =
          state.first work task (i + 2) := by rw [first, runs.job]
      rw [start, stop]
      exact runs.move found ⟨present, runs.job, rfl, Nat.le_refl _, order (i + 1)⟩ rfl rfl
  | row found more => exact runs.rowStep found more
  | finish found ended =>
      obtain ⟨present, _, stop, _, below⟩ := runs.serves i _ found
      exact runs.move found present rfl (show _ = _ by simp only [Worker.reached]; omega)
  | @count seen found =>
      have present : seen = state.gen := runs.serves i _ found
      constructor
      · exact runs.job
      · exact runs.act
      · exact runs.serves_move found (Or.inl present)
      · have balance := @countP_modify _ _ _ (fun _ => (⟨seen, .spinning⟩ : Worker Job)) _
          (Worker.finished state.gen) found
        simp only [Worker.finished, present, decide_true, Bool.toNat_true, Bool.toNat_false,
          Nat.add_zero] at balance
        rw [present]
        exact (congrArg (· + 1) runs.counted).trans balance.symm
      · apply runs.memory.congr
        intro j
        refine or_congr_right (exists_congr fun k => ?_)
        rw [show PoolState.Wrote work { state.move i ⟨seen, .spinning⟩ with done := state.done + 1 }
          task k j = (state.move i ⟨seen, .spinning⟩).Wrote work task k j from rfl, wrote_move found]
        split
        next here =>
          subst here
          rw [wrote_iff found]
          simp only [Worker.reached, if_pos present]
        next => rfl

end Runs

/-! ## The caller keeps it -/

section Caller

variable {task : PoolTask Job Act Dest Value} {base : Dest → Nat → Value}

/-- With the generation raised every worker has its share in front of it. -/
theorem PoolState.Quiet.raised {holder : Holder Job Act Dest Value} {pc : CallerPc Job}
    (quiet : state.Quiet base) (act : state.acts (work.act task.job) = task.prepare base)
    (job : state.job = task.job) (cleared : state.done = 0) :
    PoolState.Runs work { state.goTo holder pc with gen := state.gen + 1 } task base True 0 := by
  have raised := fun {i worker} (found : state.workers[i]? = some worker) =>
    @Worker.Idle.raised _ state.gen task.job (state.first work task (i + 1))
      (state.first work task (i + 2)) worker (quiet.idle worker (List.mem_of_getElem? found))
  constructor
  · exact job
  · exact act
  · exact fun i worker found => (raised found).1
  · refine cleared.trans (List.countP_eq_zero.mpr fun worker member => ?_).symm
    obtain ⟨i, found⟩ := List.mem_iff_getElem?.mp member
    exact Bool.not_eq_true _ ▸ (raised found).2.1
  · have memory : state.memory = base := quiet.memory
    rw [show PoolState.memory { state.goTo holder pc with gen := state.gen + 1 } = base from memory]
    apply overlaid_none
    rintro j (below | ⟨i, worker, found, above, below⟩)
    · exact Nat.not_lt_zero j below
    · have reached := (raised found).2.2
      exact absurd (reached ▸ below) (Nat.not_lt.mpr above)

/-- Behind the wake-up no worker sleeps without having seen the generation. -/
theorem PoolState.Runs.woken {holder : Holder Job Act Dest Value} {pc : CallerPc Job}
    (runs : state.Runs work task base True 0) :
    PoolState.Runs work { state.goTo holder pc with workers := state.workers.map Worker.wake } task
      base False 0 := by
  have threads : PoolState.threads
      { state.goTo holder pc with workers := state.workers.map Worker.wake } = state.threads := by
    rw [PoolState.threads, List.length_map, PoolState.threads]
  have first : ∀ t, PoolState.first work
      { state.goTo holder pc with workers := state.workers.map Worker.wake } task t =
        state.first work task t := by
    intro t
    rw [PoolState.first, PoolState.first, threads]
  constructor
  · exact runs.job
  · exact runs.act
  · intro i worker found
    rw [List.getElem?_map, Option.map_eq_some_iff] at found
    obtain ⟨before, found, rfl⟩ := found
    rw [first, first]
    exact (runs.serves i before found).wake.1
  · rw [List.countP_map]
    refine runs.counted.trans (List.countP_congr fun worker member => ?_)
    obtain ⟨i, found⟩ := List.mem_iff_getElem?.mp member
    exact (iff_of_eq (congrArg (· = true) (runs.serves i worker found).wake.2.1)).symm
  · apply runs.memory.congr
    intro j
    refine or_congr_right (exists_congr fun i => ?_)
    unfold PoolState.Wrote
    simp only [first, List.getElem?_map, Option.map_eq_some_iff]
    constructor
    · rintro ⟨_, ⟨worker, found, rfl⟩, above, below⟩
      exact ⟨worker, found, above, (runs.serves i worker found).wake.2.2 ▸ below⟩
    · rintro ⟨worker, found, above, below⟩
      exact ⟨_, ⟨worker, found, rfl⟩, above, (runs.serves i worker found).wake.2.2.symm ▸ below⟩

variable [DecidableEq Dest]

/-- When all workers have counted themselves the run is over, and has left what one thread would. -/
theorem PoolState.Runs.ended {asleep : Prop}
    (runs : state.Runs work task base asleep (state.first work task 1))
    (all : ¬state.done < state.threads - 1) : state.Quiet (work.apply base task) := by
  have threads : state.threads = state.workers.length + 1 := rfl
  have finished : ∀ worker ∈ state.workers, worker.finished state.gen = true := by
    have few := @List.countP_le_length _ (Worker.finished state.gen) (l := state.workers)
    have counted := runs.counted
    exact List.countP_eq_length.mp (by omega)
  constructor
  · exact fun worker member => Worker.finished_iff.mp (finished worker member)
  · have stop : state.first work task state.threads = work.rows task.job :=
      shareStart_self (Nat.succ_pos _)
    have written : ∀ j, state.Written work task (state.first work task 1) j ↔
        j < work.rows task.job := by
      intro j
      constructor
      · rintro (own | ⟨i, worker, found, _, below⟩)
        · have order := @shareStart_mono (work.rows task.job) state.threads 1 state.threads (by omega)
          exact Nat.lt_of_lt_of_le own (stop ▸ order)
        · have inside := (List.getElem?_eq_some_iff.mp found).1
          rw [Worker.reached_finished (finished worker (List.mem_of_getElem? found))] at below
          have order := @shareStart_mono (work.rows task.job) state.threads (i + 2) state.threads
            (by omega)
          exact Nat.lt_of_lt_of_le below (stop ▸ order)
      · intro below
        obtain ⟨t, small, above, inside⟩ := exists_share (Nat.lt_of_lt_of_eq below stop.symm)
        cases t with
        | zero => exact Or.inl inside
        | succ i =>
            have present : i < state.workers.length := by omega
            refine Or.inr ⟨i, _, List.getElem?_eq_getElem present, above, ?_⟩
            rw [Worker.reached_finished (finished _ (List.getElem_mem present))]
            exact inside
    funext dest j
    rw [PoolWork.apply]
    split
    next here =>
      obtain ⟨rfl, below⟩ := here
      exact runs.memory.there j ((written j).mpr below)
    next elsewhere =>
      exact runs.memory.kept dest j fun both => elsewhere ⟨both.1, (written j).mp both.2⟩

/-- The caller writes a row of its own share. -/
theorem PoolState.Runs.ownRow {holder : Holder Job Act Dest Value} {pc : CallerPc Job}
    {asleep : Prop} {job : Job} {row : Nat} (runs : state.Runs work task base asleep row)
    (same : job = task.job) :
    PoolState.Runs work { state.goTo holder pc with
      memory := work.store state.memory job (state.acts (work.act job)) row } task base asleep
      (row + 1) := by
  constructor
  · exact runs.job
  · exact runs.act
  · exact runs.serves
  · exact runs.counted
  · apply (runs.store same).congr
    intro j
    have below : j < row + 1 ↔ j < row ∨ j = row := Nat.lt_succ_iff_lt_or_eq
    exact (or_congr_left below).trans or_right_comm

end Caller

/-! ## Every run keeps it -/

section Holders

variable {base : Dest → Nat → Value}

/-- A call that goes on to its next run, or leaves the lock, finds everything quiet. -/
theorem inv_holderOf {tasks : List (PoolTask Job Act Dest Value)} (quiet : state.Quiet base)
    (here : state.holder = holderOf tasks) : state.Inv work base := by
  unfold PoolState.Inv
  rw [here]
  cases tasks with
  | nil => exact quiet
  | cons task rest => exact quiet

theorem Holder.Inv.of_holder {holder : Holder Job Act Dest Value} (inv : state.Inv work base)
    (held : state.holder = some holder) : holder.Inv work state base := by
  unfold PoolState.Inv at inv
  rwa [held] at inv

/-- Calls in front of the lock do not matter. -/
theorem PoolState.Inv.arrive (inv : state.Inv work base)
    (calls : List (List (PoolTask Job Act Dest Value))) :
    PoolState.Inv work { state with calls := calls } base := by
  unfold PoolState.Inv at inv ⊢
  rw [show PoolState.holder { state with calls := calls } = state.holder from rfl]
  cases here : state.holder with
  | none =>
      rw [here] at inv
      exact ⟨inv.idle, inv.memory⟩
  | some holder =>
      rw [here] at inv
      obtain ⟨task, rest, pc⟩ := holder
      cases pc with
      | preparing => exact ⟨inv.idle, inv.memory⟩
      | filling => exact ⟨⟨inv.1.idle, inv.1.memory⟩, inv.2⟩
      | clearing => exact ⟨⟨inv.1.idle, inv.1.memory⟩, inv.2⟩
      | raising => exact ⟨⟨inv.1.idle, inv.1.memory⟩, inv.2⟩
      | waking => exact ⟨inv.job, inv.act, inv.serves, inv.counted, inv.memory⟩
      | starting => exact ⟨inv.job, inv.act, inv.serves, inv.counted, inv.memory⟩
      | running job row last =>
          exact ⟨⟨inv.1.job, inv.1.act, inv.1.serves, inv.1.counted, inv.1.memory⟩, inv.2⟩
      | awaiting => exact ⟨inv.job, inv.act, inv.serves, inv.counted, inv.memory⟩

end Holders

section Runs

variable [DecidableEq Dest] {base : Dest → Nat → Value}

theorem WorkerStep.frame (step : WorkerStep work state i next) :
    next.holder = state.holder ∧ next.served = state.served ∧ next.calls = state.calls := by
  cases step <;> exact ⟨rfl, rfl, rfl⟩

theorem Holder.Inv.workerStep {holder : Holder Job Act Dest Value}
    (inv : holder.Inv work state base) (step : WorkerStep work state i next) :
    holder.Inv work next base := by
  obtain ⟨task, rest, pc⟩ := holder
  cases pc with
  | preparing => exact (PoolState.Quiet.workerStep inv step).1
  | filling =>
      obtain ⟨quiet, acts, _, _⟩ := PoolState.Quiet.workerStep inv.1 step
      exact ⟨quiet, acts ▸ inv.2⟩
  | clearing =>
      obtain ⟨quiet, acts, job, _⟩ := PoolState.Quiet.workerStep inv.1 step
      exact ⟨quiet, acts ▸ inv.2.1, job.trans inv.2.2⟩
  | raising =>
      obtain ⟨quiet, acts, job, done⟩ := PoolState.Quiet.workerStep inv.1 step
      exact ⟨quiet, acts ▸ inv.2.1, job.trans inv.2.2.1, done.trans inv.2.2.2⟩
  | waking => exact PoolState.Runs.workerStep inv step
  | starting => exact PoolState.Runs.workerStep inv step
  | running job row last =>
      have first : next.first work task 1 = state.first work task 1 := by
        cases step <;> first | rfl | exact PoolState.first_move task 1
      exact ⟨PoolState.Runs.workerStep inv.1 step, inv.2.1, inv.2.2.1.trans first.symm, inv.2.2.2⟩
  | awaiting =>
      have first : next.first work task 1 = state.first work task 1 := by
        cases step <;> first | rfl | exact PoolState.first_move task 1
      show next.Runs work task base False (next.first work task 1)
      rw [first]
      exact PoolState.Runs.workerStep inv step

theorem CallerStep.inv {before : Dest → Nat → Value}
    (inv : state.Inv work (state.served.foldl work.apply before))
    (step : CallerStep work state next) :
    next.Inv work (next.served.foldl work.apply before) := by
  cases step with
  | call tasks => exact inv.arrive _
  | acquire free found =>
      refine inv_holderOf ?_ rfl
      unfold PoolState.Inv at inv
      rw [free] at inv
      exact ⟨inv.idle, inv.memory⟩
  | @scribbleAct holder held here act =>
      have there := Holder.Inv.of_holder inv held
      unfold PoolState.Inv
      rw [show PoolState.holder { state with
        acts := Function.update state.acts (work.act holder.task.job) act } = some holder from held]
      simp only [Holder.Inv, here] at there ⊢
      exact ⟨there.idle, there.memory⟩
  | @prepared holder held here =>
      have there := Holder.Inv.of_holder inv held
      simp only [Holder.Inv, here] at there
      refine ⟨⟨there.idle, there.memory⟩, ?_⟩
      exact (Function.update_self ..).trans (congrArg holder.task.prepare there.memory)
  | @scribbleJob holder held here job =>
      have there := Holder.Inv.of_holder inv held
      unfold PoolState.Inv
      rw [show PoolState.holder { state with job := job } = some holder from held]
      simp only [Holder.Inv, here] at there ⊢
      exact ⟨⟨there.1.idle, there.1.memory⟩, there.2⟩
  | @filled holder held here =>
      have there := Holder.Inv.of_holder inv held
      simp only [Holder.Inv, here] at there
      exact ⟨⟨there.1.idle, there.1.memory⟩, there.2, rfl⟩
  | @cleared holder held here =>
      have there := Holder.Inv.of_holder inv held
      simp only [Holder.Inv, here] at there
      exact ⟨⟨there.1.idle, there.1.memory⟩, there.2.1, there.2.2, rfl⟩
  | @raised holder held here =>
      have there := Holder.Inv.of_holder inv held
      simp only [Holder.Inv, here] at there
      exact PoolState.Quiet.raised there.1 there.2.1 there.2.2.1 there.2.2.2
  | @woken holder held here =>
      have there := Holder.Inv.of_holder inv held
      simp only [Holder.Inv, here] at there
      exact PoolState.Runs.woken there
  | @start holder held here =>
      have there := Holder.Inv.of_holder inv held
      simp only [Holder.Inv, here] at there
      have zero : shareStart (work.rows state.job) state.threads 0 = 0 := shareStart_zero
      rw [zero]
      exact ⟨⟨there.job, there.act, there.serves, there.counted, there.memory⟩, there.job,
        by rw [there.job]; rfl, Nat.zero_le _⟩
  | @row holder job row last held here more =>
      have there := Holder.Inv.of_holder inv held
      simp only [Holder.Inv, here] at there
      exact ⟨PoolState.Runs.ownRow there.1 there.2.1, there.2.1, there.2.2.1, more⟩
  | @finish holder job row last held here ended =>
      have there := Holder.Inv.of_holder inv held
      simp only [Holder.Inv, here] at there
      obtain ⟨runs, _, stop, below⟩ := there
      have reached : row = state.first work holder.task 1 := by omega
      rw [reached] at runs
      exact ⟨runs.job, runs.act, runs.serves, runs.counted, runs.memory⟩
  | @awaited holder held here all =>
      have there := Holder.Inv.of_holder inv held
      simp only [Holder.Inv, here] at there
      have quiet := there.ended all
      refine inv_holderOf ?_ rfl
      rw [List.foldl_append]
      exact ⟨quiet.idle, quiet.memory⟩

theorem PoolStep.inv {before : Dest → Nat → Value}
    (inv : state.Inv work (state.served.foldl work.apply before)) (step : PoolStep work state next) :
    next.Inv work (next.served.foldl work.apply before) := by
  cases step with
  | caller step => exact CallerStep.inv inv step
  | worker i step =>
      obtain ⟨held, served, _⟩ := WorkerStep.frame step
      rw [served]
      unfold PoolState.Inv at inv ⊢
      rw [held]
      cases here : state.holder with
      | none =>
          rw [here] at inv
          exact (PoolState.Quiet.workerStep inv step).1
      | some holder =>
          rw [here] at inv
          exact Holder.Inv.workerStep inv step

theorem PoolReached.inv {acts : Nat → Act} {before : Dest → Nat → Value} {workers : Nat}
    (reached : PoolReached work acts before workers state) :
    state.Inv work (state.served.foldl work.apply before) := by
  induction reached with
  | init job =>
      refine ⟨fun worker member => ?_, rfl⟩
      rw [List.eq_of_mem_replicate member]
      exact ⟨rfl, Or.inl rfl⟩
  | step _ step inductionHypothesis => exact PoolStep.inv inductionHypothesis step

end Runs

end Invariant

end KairosEngine.Cuda
