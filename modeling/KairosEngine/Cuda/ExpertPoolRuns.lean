import Mathlib.Algebra.Order.BigOperators.Group.Finset
import Mathlib.Logic.Relation
import KairosEngine.Cuda.RoutedExperts
import KairosEngine.Cuda.ExpertPool

/-!
# What the worker threads come to

The calls of the pool are as good as one after the other on one thread, whoever takes the next step,
and none of them is stuck.
-/

namespace KairosEngine.Cuda

open KairosEngine.Library

section Pool

variable {Job Act Dest Value : Type} (work : PoolWork Job Act Dest Value)
  {state next : PoolState Job Act Dest Value} {i : Nat} {worker moved : Worker Job}

/-! ## What is left to do -/

section Costs

variable (threads : Nat)

/-- The steps of a worker until it has counted itself, from where it is in its share. -/
def Worker.cost (gen : UInt32) (share : Nat) (worker : Worker Job) : Nat :=
  match worker.pc with
  | .spinning | .parked => if worker.seen = gen then 0 else 5 + share
  | .leaving => 4 + share
  | .taking => 3 + share
  | .running _ row last => 2 + (last - row)
  | .counting => 1

/-- The rows of a thread. -/
def PoolWork.share (task : PoolTask Job Act Dest Value) (t : Nat) : Nat :=
  shareStart (work.rows task.job) threads (t + 1) - shareStart (work.rows task.job) threads t

/-- The steps of the workers of a run that has not begun. -/
def PoolWork.toServe (task : PoolTask Job Act Dest Value) : Nat :=
  ∑ i ∈ Finset.range (threads - 1), (5 + work.share threads task (i + 1))

def PoolWork.taskCost (task : PoolTask Job Act Dest Value) : Nat :=
  8 + work.share threads task 0 + work.toServe threads task

def PoolWork.tasksCost (tasks : List (PoolTask Job Act Dest Value)) : Nat :=
  (tasks.map (work.taskCost threads)).sum

/-- The steps of the workers of the run that is on. -/
def PoolState.serving (state : PoolState Job Act Dest Value) (task : PoolTask Job Act Dest Value) :
    Nat :=
  ∑ i ∈ Finset.range (threads - 1), (state.workers[i]?.map fun worker =>
    worker.cost state.gen (work.share threads task (i + 1))).getD 0

def Holder.cost (state : PoolState Job Act Dest Value) (holder : Holder Job Act Dest Value) : Nat :=
  let own := work.share threads holder.task 0
  match holder.pc with
  | .preparing => work.taskCost threads holder.task
  | .filling => 7 + own + work.toServe threads holder.task
  | .clearing => 6 + own + work.toServe threads holder.task
  | .raising => 5 + own + work.toServe threads holder.task
  | .waking => 4 + own + state.serving work threads holder.task
  | .starting => 3 + own + state.serving work threads holder.task
  | .running _ row last => 2 + (last - row) + state.serving work threads holder.task
  | .awaiting => 1 + state.serving work threads holder.task

/-- The steps until nothing is left, without sleep. -/
def PoolState.cost (state : PoolState Job Act Dest Value) : Nat :=
  (state.calls.map fun tasks => 1 + work.tasksCost threads tasks).sum +
    match state.holder with
    | none => 0
    | some holder => holder.cost work threads state + work.tasksCost threads holder.rest

end Costs

/-- The runs that are not over, the call with the lock first. -/
def PoolState.todo (state : PoolState Job Act Dest Value) : List (PoolTask Job Act Dest Value) :=
  (match state.holder with
    | none => []
    | some holder => holder.task :: holder.rest) ++ state.calls.flatten

variable {work}

section Progress

variable {base : Dest → Nat → Value} {task : PoolTask Job Act Dest Value}

theorem PoolState.serving_move (found : state.workers[i]? = some worker)
    (less : moved.cost state.gen (work.share state.threads task (i + 1)) <
      worker.cost state.gen (work.share state.threads task (i + 1))) :
    (state.move i moved).serving work state.threads task < state.serving work state.threads task := by
  have inside : i < state.threads - 1 := (List.getElem?_eq_some_iff.mp found).1
  apply Finset.sum_lt_sum
  · intro k _
    rw [getElem?_move found]
    split
    next here =>
      subst here
      rw [found]
      exact Nat.le_of_lt less
    next => exact Nat.le_refl _
  · refine ⟨i, Finset.mem_range.mpr inside, ?_⟩
    rw [getElem?_move found, if_pos rfl, found]
    exact less

/-- The workers of a run that is published have all of it in front of them. -/
theorem PoolState.serving_raised {holder : Holder Job Act Dest Value} {pc : CallerPc Job}
    (quiet : state.Quiet base) :
    PoolState.serving work state.threads { state.goTo holder pc with gen := state.gen + 1 } task =
      work.toServe state.threads task := by
  apply Finset.sum_congr rfl
  intro i member
  have inside : i < state.workers.length := Finset.mem_range.mp member
  have found := List.getElem?_eq_getElem inside
  obtain ⟨seen, here⟩ := quiet.idle _ (List.getElem_mem inside)
  have unseen : ¬state.workers[i].seen = state.gen + 1 := seen ▸ next_ne _
  rw [show PoolState.workers { state.goTo holder pc with gen := state.gen + 1 } = state.workers from
    rfl, found, Option.map_some, Option.getD_some, Worker.cost]
  rcases here with spinning | parked
  · rw [spinning]
    exact if_neg unseen
  · rw [parked]
    exact if_neg unseen

theorem PoolState.serving_woken {holder : Holder Job Act Dest Value} {pc : CallerPc Job} :
    PoolState.serving work state.threads
        { state.goTo holder pc with workers := state.workers.map Worker.wake } task =
      state.serving work state.threads task := by
  apply Finset.sum_congr rfl
  intro i _
  rw [List.getElem?_map, Option.map_map]
  congr 2
  funext worker
  obtain ⟨seen, pc⟩ := worker
  cases pc <;> rfl

/-- A call that has its next run in front of it, and one that has none. -/
theorem cost_holderOf (threads : Nat) (after : PoolState Job Act Dest Value)
    (tasks : List (PoolTask Job Act Dest Value)) (held : after.holder = holderOf tasks) :
    after.cost work threads =
        (after.calls.map fun tasks => 1 + work.tasksCost threads tasks).sum +
          work.tasksCost threads tasks ∧ after.todo = tasks ++ after.calls.flatten := by
  rw [PoolState.cost, PoolState.todo, held]
  cases tasks with
  | nil => exact ⟨rfl, rfl⟩
  | cons task rest => exact ⟨rfl, rfl⟩

variable [DecidableEq Dest]

/-- While the caller waits, some worker has a step that brings it closer to counting itself. -/
theorem PoolState.Runs.progress (runs : state.Runs work task base False own)
    (waiting : state.done < state.threads - 1) :
    ∃ i next, WorkerStep work state i next ∧ next.threads = state.threads ∧
      next.serving work state.threads task < state.serving work state.threads task := by
  obtain ⟨worker, member, unfinished⟩ : ∃ worker ∈ state.workers,
      ¬worker.finished state.gen = true := by
    by_contra none
    have all := List.countP_eq_length.mpr fun worker member =>
      Decidable.of_not_not fun unfinished => none ⟨worker, member, unfinished⟩
    have counted := runs.counted
    have threads : state.threads = state.workers.length + 1 := rfl
    omega
  obtain ⟨i, found⟩ := List.mem_iff_getElem?.mp member
  have serves := runs.serves i worker found
  obtain ⟨seen, pc⟩ := worker
  refine ⟨i, ?_⟩
  cases pc with
  | spinning =>
      have unseen : ¬seen = state.gen := by simpa [Worker.finished] using unfinished
      refine ⟨_, .leave found (Ne.symm unseen), threads_move, serving_move found ?_⟩
      simp only [Worker.cost, if_neg unseen]
      omega
  | parked =>
      have seen : seen = state.gen := serves.resolve_right fun asleep => asleep.1
      exact absurd (decide_eq_true seen) unfinished
  | leaving =>
      exact ⟨_, .adopt found, threads_move, serving_move found (by simp only [Worker.cost]; omega)⟩
  | taking =>
      refine ⟨_, .take found, threads_move, serving_move found ?_⟩
      simp only [Worker.cost, PoolWork.share, runs.job, Nat.add_assoc, Nat.reduceAdd]
      omega
  | running job row last =>
      by_cases more : row < last
      · exact ⟨_, .row found more, threads_move,
          serving_move found (by simp only [Worker.cost]; omega)⟩
      · exact ⟨_, .finish found more, threads_move,
          serving_move found (by simp only [Worker.cost]; omega)⟩
  | counting =>
      have seen : seen = state.gen := serves
      exact ⟨_, .count found, threads_move,
        serving_move found (by simp only [Worker.cost, if_pos seen]; omega)⟩

/-- A step inside the lock that leaves the call where it is. -/
theorem PoolState.progress_held {rest : List (PoolTask Job Act Dest Value)} {pc later : CallerPc Job}
    (held : state.holder = some ⟨task, rest, pc⟩) (step : PoolStep work state next)
    (still : next.holder = some ⟨task, rest, later⟩) (calls : next.calls = state.calls)
    (served : next.served = state.served) (threads : next.threads = state.threads)
    (less : (Holder.mk task rest later).cost work state.threads next <
      (Holder.mk task rest pc).cost work state.threads state) :
    ∃ next, PoolStep work state next ∧ next.threads = state.threads ∧
      next.served ++ next.todo = state.served ++ state.todo ∧
      next.cost work state.threads < state.cost work state.threads := by
  refine ⟨next, step, threads, ?_, ?_⟩
  · rw [todo, todo, still, held, calls, served]
  · rw [PoolState.cost, PoolState.cost, still, held, calls]
    exact Nat.add_lt_add_left (Nat.add_lt_add_right less _) _

/-- As long as a call is not over, a step brings it closer to its end. -/
theorem PoolState.Inv.progress (inv : state.Inv work base)
    (busy : state.holder = none → state.calls ≠ []) :
    ∃ next, PoolStep work state next ∧ next.threads = state.threads ∧
      next.served ++ next.todo = state.served ++ state.todo ∧
      next.cost work state.threads < state.cost work state.threads := by
  cases held : state.holder with
  | none =>
      cases calls : state.calls with
      | nil => exact absurd calls (busy held)
      | cons tasks rest =>
          have found : state.calls[0]? = some tasks := by
            rw [calls]
            rfl
          have left : PoolState.calls
              { state with calls := state.calls.eraseIdx 0, holder := holderOf tasks } = rest := by
            rw [calls]
            rfl
          obtain ⟨cost, todo⟩ := @cost_holderOf _ _ _ _ work state.threads
            { state with calls := state.calls.eraseIdx 0, holder := holderOf tasks } tasks rfl
          refine ⟨_, .caller (.acquire held found), rfl, ?_, ?_⟩
          · rw [todo, left, PoolState.todo, held, calls]
            rfl
          · rw [cost, left, PoolState.cost, held, calls, List.map_cons, List.sum_cons]
            dsimp only
            omega
  | some holder =>
      have there := Holder.Inv.of_holder inv held
      obtain ⟨task, rest, pc⟩ := holder
      cases pc with
      | preparing =>
          refine progress_held held (.caller (.prepared held rfl)) rfl rfl rfl rfl ?_
          simp only [Holder.cost, PoolWork.taskCost]
          omega
      | filling =>
          refine progress_held held (.caller (.filled held rfl)) rfl rfl rfl rfl ?_
          simp only [Holder.cost]
          omega
      | clearing =>
          refine progress_held held (.caller (.cleared held rfl)) rfl rfl rfl rfl ?_
          simp only [Holder.cost]
          omega
      | raising =>
          refine progress_held held (.caller (.raised held rfl)) rfl rfl rfl rfl ?_
          simp only [Holder.cost, serving_raised there.1]
          omega
      | waking =>
          refine progress_held held (.caller (.woken held rfl)) rfl rfl rfl ?_ ?_
          · rw [PoolState.threads, List.length_map, PoolState.threads]
          · simp only [Holder.cost, serving_woken]
            omega
      | starting =>
          refine progress_held held (.caller (.start held rfl)) rfl rfl rfl rfl ?_
          have same : ∀ pc, (state.goTo ⟨task, rest, .starting⟩ pc).serving work state.threads task =
              state.serving work state.threads task := fun _ => rfl
          simp only [Holder.cost, PoolWork.share, PoolState.Runs.job there, same, Nat.zero_add]
          omega
      | running job row last =>
          by_cases more : row < last
          · refine progress_held held (.caller (.row held rfl more)) rfl rfl rfl rfl ?_
            have same : PoolState.serving work state.threads { state.goTo ⟨task, rest,
                .running job row last⟩ (.running job (row + 1) last) with
                  memory := work.store state.memory job (state.acts (work.act job)) row } task =
                state.serving work state.threads task := rfl
            simp only [Holder.cost, same]
            omega
          · refine progress_held held (.caller (.finish held rfl more)) rfl rfl rfl rfl ?_
            have same : PoolState.serving work state.threads
                (state.goTo ⟨task, rest, .running job row last⟩ .awaiting) task =
                state.serving work state.threads task := rfl
            simp only [Holder.cost, same]
            omega
      | awaiting =>
          by_cases waiting : state.done < state.threads - 1
          · obtain ⟨i, next, step, threads, less⟩ := PoolState.Runs.progress there waiting
            obtain ⟨still, served, calls⟩ := WorkerStep.frame step
            exact progress_held held (.worker i step) (still.trans held) calls served threads
              (Nat.add_lt_add_left less 1)
          · obtain ⟨cost, todo⟩ := @cost_holderOf _ _ _ _ work state.threads
              { state with holder := holderOf rest, served := state.served ++ [task] } rest rfl
            refine ⟨_, .caller (.awaited held rfl waiting), rfl, ?_, ?_⟩
            · rw [todo, PoolState.todo, held]
              simp only [List.append_assoc, List.cons_append, List.nil_append]
            · rw [cost, PoolState.cost, held]
              simp only [Holder.cost]
              omega

end Progress

/-! ## Workers that are busy -/

/-- A worker behind its wait loop that has not counted itself. -/
def Worker.busy (worker : Worker Job) : Bool :=
  match worker.pc with
  | .spinning | .parked => false
  | _ => true

section Busy

variable {base : Dest → Nat → Value}

theorem PoolState.Quiet.not_busy (quiet : state.Quiet base)
    (found : state.workers[i]? = some worker) : worker.busy = false := by
  obtain ⟨_, spinning | parked⟩ := quiet.idle worker (List.mem_of_getElem? found)
  · rw [Worker.busy, spinning]
  · rw [Worker.busy, parked]

/-- A call whose run is published. -/
def Holder.published (holder : Holder Job Act Dest Value) : Bool :=
  match holder.pc with
  | .waking | .starting | .running _ _ _ | .awaiting => true
  | _ => false

theorem Holder.Inv.of_published {holder : Holder Job Act Dest Value}
    (inv : holder.Inv work state base) (published : holder.published = true) :
    state.job = holder.task.job ∧
      state.acts (work.act holder.task.job) = holder.task.prepare base := by
  obtain ⟨task, rest, pc⟩ := holder
  cases pc with
  | waking => exact ⟨PoolState.Runs.job inv, PoolState.Runs.act inv⟩
  | starting => exact ⟨PoolState.Runs.job inv, PoolState.Runs.act inv⟩
  | running job row last => exact ⟨PoolState.Runs.job inv.1, PoolState.Runs.act inv.1⟩
  | awaiting => exact ⟨PoolState.Runs.job inv, PoolState.Runs.act inv⟩
  | preparing => cases published
  | filling => cases published
  | clearing => cases published
  | raising => cases published

theorem PoolState.Inv.busy_published (inv : state.Inv work base)
    (found : state.workers[i]? = some worker) (busy : worker.busy = true) :
    ∃ holder, state.holder = some holder ∧ holder.published = true := by
  have idle : ∀ {base : Dest → Nat → Value}, state.Quiet base → False :=
    fun quiet => Bool.false_ne_true ((quiet.not_busy found).symm.trans busy)
  cases held : state.holder with
  | none =>
      unfold PoolState.Inv at inv
      rw [held] at inv
      exact absurd inv idle
  | some holder =>
      have there := Holder.Inv.of_holder inv held
      obtain ⟨task, rest, pc⟩ := holder
      cases pc with
      | preparing => exact absurd there idle
      | filling => exact absurd there.1 idle
      | clearing => exact absurd there.1 idle
      | raising => exact absurd there.1 idle
      | waking => exact ⟨_, rfl, rfl⟩
      | starting => exact ⟨_, rfl, rfl⟩
      | running job row last => exact ⟨_, rfl, rfl⟩
      | awaiting => exact ⟨_, rfl, rfl⟩

/-- Only in front of the wake-up does a worker sleep on a generation that has passed. -/
theorem PoolState.Inv.sleeper (inv : state.Inv work base) {seen : UInt32}
    (found : state.workers[i]? = some ⟨seen, .parked⟩) (passed : seen ≠ state.gen) :
    ∃ holder, state.holder = some holder ∧ holder.pc = .waking := by
  have idle : ∀ {base : Dest → Nat → Value}, state.Quiet base → False :=
    fun quiet => passed (quiet.idle _ (List.mem_of_getElem? found)).1
  have awake : ∀ {task base own}, state.Runs work task base False own → False :=
    fun runs => (runs.serves i _ found).elim passed And.left
  cases held : state.holder with
  | none =>
      unfold PoolState.Inv at inv
      rw [held] at inv
      exact absurd inv idle
  | some holder =>
      have there := Holder.Inv.of_holder inv held
      obtain ⟨task, rest, pc⟩ := holder
      cases pc with
      | preparing => exact absurd there idle
      | filling => exact absurd there.1 idle
      | clearing => exact absurd there.1 idle
      | raising => exact absurd there.1 idle
      | waking => exact ⟨_, rfl, rfl⟩
      | starting => exact absurd there awake
      | running job row last => exact absurd there.1 awake
      | awaiting => exact absurd there awake

/-- Nobody writes the job or the activations of a published run. -/
theorem PoolStep.published [DecidableEq Dest] {holder : Holder Job Act Dest Value} (step : PoolStep work state next)
    (held : state.holder = some holder) (published : holder.published = true) :
    next.job = state.job ∧ next.acts = state.acts := by
  have elsewhere : ∀ {other : Holder Job Act Dest Value} {pc : CallerPc Job},
      state.holder = some other → other.pc = pc →
        (Holder.mk other.task other.rest pc).published = true := by
    intro other pc there here
    obtain rfl : holder = other := Option.some.inj (held.symm.trans there)
    rw [← here]
    exact published
  cases step with
  | worker i step => cases step <;> exact ⟨rfl, rfl⟩
  | caller step =>
      cases step with
      | call tasks => exact ⟨rfl, rfl⟩
      | acquire free found => exact absurd (held.symm.trans free) (by simp)
      | scribbleAct there here act => exact absurd (elsewhere there here) Bool.false_ne_true
      | prepared there here => exact absurd (elsewhere there here) Bool.false_ne_true
      | scribbleJob there here job => exact absurd (elsewhere there here) Bool.false_ne_true
      | filled there here => exact absurd (elsewhere there here) Bool.false_ne_true
      | cleared there here => exact ⟨rfl, rfl⟩
      | raised there here => exact ⟨rfl, rfl⟩
      | woken there here => exact ⟨rfl, rfl⟩
      | start there here => exact ⟨rfl, rfl⟩
      | row there here more => exact ⟨rfl, rfl⟩
      | finish there here ended => exact ⟨rfl, rfl⟩
      | awaited there here all => exact ⟨rfl, rfl⟩

end Busy

end Pool

/-! ## Every interleaving -/

/-- One activation for all, to which a row adds its number. -/
def countWork : PoolWork Nat Nat Unit Nat where
  rows := id
  dest := fun _ => ()
  act := fun _ => 0
  row := fun _ act j => act + j

def threeRows : PoolTask Nat Nat Unit Nat := ⟨3, fun _ => 10⟩

/-- The worker has left its wait loop for three rows. -/
def calledWorker : PoolState Nat Nat Unit Nat where
  gen := 1
  done := 0
  job := 3
  acts := Function.update (fun _ => 0) 0 10
  memory := fun _ _ => 0
  workers := [⟨0, .leaving⟩]
  holder := some ⟨threeRows, [], .waking⟩
  calls := []
  served := []

theorem reached_calledWorker :
    PoolReached countWork (fun _ => 0) (fun _ _ => 0) 1 calledWorker := by
  have called := PoolReached.step (@PoolReached.init _ _ _ _ _ countWork (fun _ => 0)
    (fun _ _ => 0) 1 0) (.caller (.call [threeRows]))
  have acquired := called.step (.caller (@CallerStep.acquire _ _ _ _ _ _ _ 0 _ rfl rfl))
  have prepared := acquired.step (.caller (.prepared rfl rfl))
  have filled := prepared.step (.caller (.filled rfl rfl))
  have cleared := filled.step (.caller (.cleared rfl rfl))
  have raised := cleared.step (.caller (.raised rfl rfl))
  exact raised.step (.worker 0 (.leave rfl (by decide)))

section Interleavings

variable {Job Act Dest Value : Type} [DecidableEq Dest] (work : PoolWork Job Act Dest Value)
  (acts : Nat → Act) (memory : Dest → Nat → Value) (workers : Nat)

/-- However the steps of the callers and the workers interleave: with the lock free the memory is
what the served runs leave on one thread, one after the other; a worker behind its wait loop works on
the job and the activations of the call that holds the lock, which no step changes under it; and no
worker sleeps through a generation. -/
theorem expertPool_serial (state : PoolState Job Act Dest Value)
    (reached : PoolReached work acts memory workers state) :
    (state.holder = none → state.memory = state.served.foldl work.apply memory) ∧
      (∀ (i : Nat) (worker : Worker Job), state.workers[i]? = some worker → worker.busy = true →
        ∃ holder, state.holder = some holder ∧ state.job = holder.task.job ∧
          state.acts (work.act holder.task.job) =
            holder.task.prepare (state.served.foldl work.apply memory) ∧
          ∀ next, PoolStep work state next → next.job = state.job ∧ next.acts = state.acts) ∧
      ∀ (i : Nat) (seen : UInt32), state.workers[i]? = some ⟨seen, .parked⟩ → seen ≠ state.gen →
        ∃ holder, state.holder = some holder ∧ holder.pc = .waking := by
  have inv := reached.inv
  refine ⟨fun free => ?_, fun i worker found busy => ?_, fun i seen found passed => ?_⟩
  · unfold PoolState.Inv at inv
    rw [free] at inv
    exact inv.memory
  · obtain ⟨holder, held, published⟩ := inv.busy_published found busy
    obtain ⟨job, act⟩ := (Holder.Inv.of_holder inv held).of_published published
    exact ⟨holder, held, job, act, fun next step => step.published held published⟩
  · exact inv.sleeper found passed

theorem expertPool_serial_three :
    ∃ holder, calledWorker.holder = some holder ∧ calledWorker.job = holder.task.job ∧
      calledWorker.acts 0 = holder.task.prepare (fun _ _ => 0) ∧
      ∀ next, PoolStep countWork calledWorker next →
        next.job = calledWorker.job ∧ next.acts = calledWorker.acts :=
  (expertPool_serial countWork (fun _ => 0) (fun _ _ => 0) 1 calledWorker
    reached_calledWorker).2.1 0 ⟨0, .leaving⟩ rfl rfl

/-- From every reachable state all calls can be finished, first come first served, and their runs
leave what they would on one thread. -/
theorem expertPool_completes (state : PoolState Job Act Dest Value)
    (reached : PoolReached work acts memory workers state) :
    ∃ final, Relation.ReflTransGen (PoolStep work) state final ∧ final.holder = none ∧
      final.calls = [] ∧ final.memory = (state.served ++ state.todo).foldl work.apply memory := by
  obtain ⟨final, run, reached, held, calls, served⟩ : ∃ final,
      Relation.ReflTransGen (PoolStep work) state final ∧ PoolReached work acts memory workers final ∧
        final.holder = none ∧ final.calls = [] ∧
          final.served ++ final.todo = state.served ++ state.todo := by
    induction cost : state.cost work state.threads using Nat.strong_induction_on generalizing state with
    | _ count inductionHypothesis =>
        by_cases ended : state.holder = none ∧ state.calls = []
        · exact ⟨state, .refl, reached, ended.1, ended.2, rfl⟩
        · obtain ⟨next, step, threads, same, less⟩ :=
            reached.inv.progress fun free calls => ended ⟨free, calls⟩
          rw [← threads] at less
          obtain ⟨final, run, there, held, calls, served⟩ := inductionHypothesis
            (next.cost work next.threads) (by rw [threads] at less ⊢; omega) next
            (.step reached step) rfl
          exact ⟨final, .head step run, there, held, calls, served.trans same⟩
  refine ⟨final, run, held, calls, ?_⟩
  have left : final.todo = [] := by
    rw [PoolState.todo, held, calls]
    rfl
  rw [left, List.append_nil] at served
  have inv := reached.inv
  unfold PoolState.Inv at inv
  rw [held] at inv
  rw [← served]
  exact inv.memory

theorem expertPool_completes_three :
    ∃ final, Relation.ReflTransGen (PoolStep countWork) calledWorker final ∧ final.holder = none ∧
      final.calls = [] ∧ final.memory = countWork.apply (fun _ _ => 0) threeRows :=
  expertPool_completes countWork (fun _ => 0) (fun _ _ => 0) 1 calledWorker reached_calledWorker

end Interleavings

/-! ## The product on the pool -/

section Gemv

variable {F Dest : Type} [DecidableEq Dest] (floats : GateFloats F)

/-- The `g_job` of a call of `sp_moe_cpu_gemv`. -/
structure GemvJob (Dest : Type) where
  codes : List UInt8
  bs : List UInt16
  rows : Nat
  y : Dest

/-- `gemv_rows_exact` row by row; the activations are `g_ax`, with the scales. -/
def gemvWork : PoolWork (GemvJob Dest) (ActX × List F) Dest F where
  rows := GemvJob.rows
  dest := GemvJob.y
  act := fun _ => 0
  row := fun job ax j =>
    let sums := gemvRowsExactInts job.codes ax.1 j (fun _ => 0) fun _ => 0
    rowExact floats.toExpertFloats job.bs ax.1 ax.2 j sums.1 sums.2

def gemvTask (codes : List UInt8) (bs : List UInt16) (inputs rows : Nat) (qx : List Int8)
    (sx : List F) (y : Dest) : PoolTask (GemvJob Dest) (ActX × List F) Dest F where
  job := ⟨codes, bs, rows, y⟩
  prepare := fun _ => (actxFromQ qx inputs, sx)

variable {floats} (commutes : ∀ a b, floats.add a b = floats.add b a)

include commutes in
/-- A row does not see what its thread has on the stack. -/
theorem rowExact_stale (codes : List UInt8) (bs : List UInt16) (inputs : Nat) (qx : List Int8)
    (sx : List F) (j : Nat) (a0 a1 b0 b1 : Nat → Int) :
    let stale := gemvRowsExactInts codes (actxFromQ qx inputs) j a0 a1
    let clean := gemvRowsExactInts codes (actxFromQ qx inputs) j b0 b1
    rowExact floats.toExpertFloats bs (actxFromQ qx inputs) sx j stale.1 stale.2 =
      rowExact floats.toExpertFloats bs (actxFromQ qx inputs) sx j clean.1 clean.2 := by
  intro stale clean
  have n32 : (actxFromQ qx inputs).n32 = inputs / 32 := rfl
  have ng : (actxFromQ qx inputs).ng = (inputs + 127) / 128 := rfl
  have sums : ∀ c < (actxFromQ qx inputs).n32, stale.1 c = clean.1 c ∧ stale.2 c = clean.2 c := by
    intro c below
    have stored : c < 4 * (actxFromQ qx inputs).ng := by omega
    simp only [stale, clean, gemvRowsExactInts]
    rw [foldl_storeSi128, foldl_storeSi128, foldl_storeSi128, foldl_storeSi128, if_pos stored,
      if_pos stored, if_pos stored, if_pos stored]
    exact ⟨rfl, rfl⟩
  refine (foldl_foldHalf commutes 5).trans (Eq.trans ?_ (foldl_foldHalf commutes 5).symm)
  apply meet_congr
  intro lane _ below
  have inWarp : lane < 32 := Nat.lt_of_le_of_lt below (by decide)
  rw [hostLanes_eq _ _ _ _ _ _ _ inWarp, hostLanes_eq _ _ _ _ _ _ _ inWarp]
  apply List.foldl_ext
  intro facc c member
  obtain ⟨first, second⟩ := sums c (mem_starts.mp member).2.1
  rw [first, second]

include commutes in
/-- One thread that goes through all rows leaves what the threads leave with their shares. -/
theorem spMoeCpuGemv_apply {codes : List UInt8} {bs : List UInt16} {inputs rows : Nat}
    {qx : List Int8} {sx : List F} {stale : (Nat → Int) × (Nat → Int)} {memory : Dest → Nat → F}
    {y : Dest} {result : Nat → F}
    (called : spMoeCpuGemv floats codes bs inputs rows qx sx (memory y) stale = some result) :
    (gemvWork floats).apply memory (gemvTask codes bs inputs rows qx sx y) =
      Function.update memory y result := by
  have loop : ∀ (todo : List Nat) (state : (Nat → F) × (Nat → Int) × (Nat → Int)) (j : Nat),
      (todo.foldl (exactRound floats.toExpertFloats codes bs (actxFromQ qx inputs) sx) state).1 j =
        if j ∈ todo then (gemvWork floats).row ⟨codes, bs, rows, y⟩ (actxFromQ qx inputs, sx) j
        else state.1 j := by
    intro todo
    induction todo with
    | nil => exact fun _ _ => rfl
    | cons row rest inductionHypothesis =>
        intro state j
        rw [List.foldl_cons, inductionHypothesis, exactRound_fst]
        by_cases later : j ∈ rest
        · rw [if_pos later, if_pos (List.mem_cons_of_mem _ later)]
        · rw [if_neg later]
          by_cases here : j = row
          · subst here
            rw [Function.update_self, if_pos List.mem_cons_self]
            exact rowExact_stale commutes codes bs inputs qx sx j _ _ _ _
          · rw [Function.update_of_ne here, if_neg fun member =>
              (List.mem_cons.mp member).elim here later]
  unfold spMoeCpuGemv at called
  split at called
  next => cases called
  next =>
    cases called
    funext dest j
    rw [PoolWork.apply]
    by_cases here : dest = y
    · subst here
      rw [Function.update_self, gemvRowsExact, loop]
      by_cases below : j < rows
      · rw [if_pos ⟨rfl, below⟩, if_pos (List.mem_range'_1.mpr (by omega))]
        rfl
      · rw [if_neg fun both => below both.2,
          if_neg fun member => below (by rw [List.mem_range'_1] at member; omega)]
    · rw [Function.update_of_ne here, if_neg fun both => here both.1]

include commutes in
/-- So a call whose run comes last leaves in its `y` what it would on one thread. -/
theorem PoolReached.gemv {acts : Nat → ActX × List F} {memory : Dest → Nat → F} {workers : Nat}
    {state : PoolState (GemvJob Dest) (ActX × List F) Dest F}
    (reached : PoolReached (gemvWork floats) acts memory workers state) (free : state.holder = none)
    {earlier : List (PoolTask (GemvJob Dest) (ActX × List F) Dest F)} {codes : List UInt8}
    {bs : List UInt16} {inputs rows : Nat} {qx : List Int8} {sx : List F} {y : Dest}
    (last : state.served = earlier ++ [gemvTask codes bs inputs rows qx sx y])
    {stale : (Nat → Int) × (Nat → Int)} {result : Nat → F}
    (called : spMoeCpuGemv floats codes bs inputs rows qx sx
      ((earlier.foldl (gemvWork floats).apply memory) y) stale = some result) :
    state.memory y = result := by
  have inv := reached.inv
  unfold PoolState.Inv at inv
  rw [free, last, List.foldl_append] at inv
  have left : state.memory = _ := inv.memory
  rw [left]
  exact (congrFun (spMoeCpuGemv_apply commutes called) y).trans (Function.update_self ..)

end Gemv

end KairosEngine.Cuda
