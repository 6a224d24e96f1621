import KairosEngine.Library.Loop
import KairosEngine.Library.TaskPool
import Mathlib.Algebra.Group.Nat.Defs

/-!
# The host-free measurement window

`G4FwdGuard` counts the forwards in flight and numbers their entries; `hf_win_open` and
`hf_win_valid` read both.  Every access to one of the two counters is a step of its own, and any
number of threads take turns.
-/

namespace KairosEngine.Cuda

open KairosEngine.Library

structure G4FwdGuard where
  counted : Bool
  outer : Bool
  deriving DecidableEq

/-- The atomic operation that is due; on `idle` a thread may call something. -/
inductive FwdStage
  | idle
  /-- `g_fwd_epoch.fetch_add(1)` -/
  | entering
  /-- `g_fwd_inflight.fetch_add(1)` -/
  | counting
  /-- the epoch load of `hf_win_open` in the constructor -/
  | opening
  /-- the other load of `hf_win_open` -/
  | sampling (constructing : Bool)
  /-- the last load of `hf_win_valid` -/
  | checking
  /-- `g_fwd_inflight.fetch_sub(1)` -/
  | leaving
  deriving DecidableEq

/-- What is local to a thread. -/
structure FwdThread where
  gFwdDepth : Nat
  gHfWinOk : Bool
  gHfWinEpoch : UInt64
  guards : List G4FwdGuard
  stage : FwdStage
  deriving DecidableEq

/-- The two counters; the signed one as its bit pattern. -/
structure FwdCounters where
  gFwdInflight : UInt32
  gFwdEpoch : UInt64
  deriving DecidableEq

structure FwdState where
  counters : FwdCounters
  threads : List FwdThread
  deriving DecidableEq

inductive FwdOp
  | enter (on : Bool)
  | hfWinOpen
  | hfWinValid
  | leave
  /-- Do the operation that is due. -/
  | proceed
  deriving DecidableEq

/-- Up to and including the first atomic operation of a call, or one that is due.  What a thread
cannot do leaves it as it is. -/
def FwdThread.step (op : FwdOp) (counters : FwdCounters) (thread : FwdThread) :
    FwdCounters × FwdThread :=
  match thread.stage, op with
  | .idle, .enter on =>
      if on then
        (counters,
          { thread with
            gFwdDepth := thread.gFwdDepth + 1
            guards := ⟨true, decide (thread.gFwdDepth = 0)⟩ :: thread.guards
            stage := if thread.gFwdDepth = 0 then .entering else .idle })
      else (counters, { thread with guards := ⟨false, false⟩ :: thread.guards })
  | .idle, .hfWinOpen =>
      if 0 < thread.gFwdDepth then
        (counters, { thread with gHfWinEpoch := counters.gFwdEpoch, stage := .sampling false })
      else (counters, thread)
  | .idle, .hfWinValid =>
      if 0 < thread.gFwdDepth ∧ thread.gHfWinOk ∧ counters.gFwdInflight = 1 then
        (counters, { thread with stage := .checking })
      else (counters, thread)
  | .idle, .leave =>
      match thread.guards with
      | [] => (counters, thread)
      | guard :: rest =>
          if guard.counted then
            (counters,
              { thread with
                gFwdDepth := thread.gFwdDepth - 1
                guards := rest
                stage := if guard.outer then .leaving else .idle })
          else (counters, { thread with guards := rest })
  | .entering, .proceed =>
      ({ counters with gFwdEpoch := counters.gFwdEpoch + 1 }, { thread with stage := .counting })
  | .counting, .proceed =>
      ({ counters with gFwdInflight := counters.gFwdInflight + 1 },
        { thread with stage := .opening })
  | .opening, .proceed =>
      (counters, { thread with gHfWinEpoch := counters.gFwdEpoch, stage := .sampling true })
  | .sampling _, .proceed =>
      (counters,
        { thread with gHfWinOk := decide (counters.gFwdInflight = 1), stage := .idle })
  | .checking, .proceed => (counters, { thread with stage := .idle })
  | .leaving, .proceed =>
      ({ counters with gFwdInflight := counters.gFwdInflight - 1 }, { thread with stage := .idle })
  | _, _ => (counters, thread)

namespace FwdState

/-- One thread takes a step. -/
def step (event : Nat × FwdOp) (state : FwdState) : FwdState :=
  match state.threads[event.1]? with
  | none => state
  | some thread =>
      { counters := (thread.step event.2 state.counters).1
        threads := state.threads.modify event.1 fun thread =>
          (thread.step event.2 state.counters).2 }

def start (count : Nat) : FwdState where
  counters := ⟨0, 0⟩
  threads := List.replicate count ⟨0, false, 0, [], .idle⟩

def run (count : Nat) (events : List (Nat × FwdOp)) : FwdState :=
  serveAll step events (start count)

def others (state : FwdState) (index : Nat) : List FwdThread := state.threads.eraseIdx index

end FwdState

/-! ## Windows and forwards -/

/-- The constructor of the outermost guard has completed and its destructor has not started. -/
def FwdThread.InForward (thread : FwdThread) : Prop :=
  0 < thread.gFwdDepth ∧
    (thread.stage = .idle ∨ thread.stage = .sampling false ∨ thread.stage = .checking)

instance (thread : FwdThread) : Decidable thread.InForward :=
  inferInstanceAs (Decidable (_ ∧ _))

/-- In a forward and behind its last `hf_win_open`. -/
def FwdThread.InWindow (thread : FwdThread) : Prop :=
  0 < thread.gFwdDepth ∧ (thread.stage = .idle ∨ thread.stage = .checking)

instance (thread : FwdThread) : Decidable thread.InWindow :=
  inferInstanceAs (Decidable (_ ∧ _))

/-- A thread that `g_fwd_inflight` counts. -/
def FwdThread.inFlight (thread : FwdThread) : Bool :=
  match thread.stage with
  | .idle => decide (0 < thread.gFwdDepth)
  | .entering | .counting => false
  | _ => true

namespace FwdState

/-- The load that is due makes `hf_win_valid` return true. -/
def ReturnsValid (state : FwdState) (index : Nat) : Prop :=
  ∃ thread ∈ state.threads[index]?,
    thread.stage = .checking ∧ state.counters.gFwdEpoch = thread.gHfWinEpoch

instance (state : FwdState) (index : Nat) : Decidable (state.ReturnsValid index) :=
  inferInstanceAs (Decidable (∃ thread ∈ state.threads[index]?, _ ∧ _))

/-- What has to hold when the operation of a stage is done: a window that opens as the only one does
not find another thread between its two increments, and neither counter wraps to a value that a
window compares with. -/
def Undisturbed (state : FwdState) (index : Nat) (thread : FwdThread) : FwdStage → Prop
  | .sampling _ =>
      state.counters.gFwdInflight = 1 → state.counters.gFwdEpoch = thread.gHfWinEpoch →
        ∀ other ∈ state.others index, other.stage ≠ .counting
  | .entering =>
      ∀ other ∈ state.others index, 0 < other.gFwdDepth →
        state.counters.gFwdEpoch + 1 ≠ other.gHfWinEpoch
  | .counting => state.threads.countP FwdThread.inFlight + 1 < 2 ^ 32
  | _ => True

instance (state : FwdState) (index : Nat) (thread : FwdThread) :
    ∀ stage, Decidable (state.Undisturbed index thread stage)
  | .sampling _ => inferInstanceAs (Decidable (_ → _ → ∀ other ∈ _, _))
  | .entering => inferInstanceAs (Decidable (∀ other ∈ _, _ → _))
  | .counting => inferInstanceAs (Decidable (_ < _))
  | .idle | .opening | .checking | .leaving => .isTrue trivial

def KeepsCount (event : Nat × FwdOp) (state : FwdState) : Prop :=
  ∀ thread ∈ state.threads[event.1]?, event.2 = .proceed →
    state.Undisturbed event.1 thread thread.stage

instance (event : Nat × FwdOp) (state : FwdState) : Decidable (state.KeepsCount event) :=
  inferInstanceAs (Decidable (∀ thread ∈ state.threads[event.1]?, _ → _))

end FwdState

/-! ## What one step does -/

/-- The moves of a thread. -/
inductive FwdMove (counters : FwdCounters) (thread : FwdThread) :
    FwdOp → FwdCounters → FwdThread → Prop
  | rest {op} : FwdMove counters thread op counters thread
  | outermost (idle : thread.stage = .idle) (outside : thread.gFwdDepth = 0) :
      FwdMove counters thread (.enter true) counters
        { thread with gFwdDepth := 1, guards := ⟨true, true⟩ :: thread.guards, stage := .entering }
  | nested (idle : thread.stage = .idle) (inside : 0 < thread.gFwdDepth) :
      FwdMove counters thread (.enter true) counters
        { thread with
          gFwdDepth := thread.gFwdDepth + 1, guards := ⟨true, false⟩ :: thread.guards }
  | uncounted (idle : thread.stage = .idle) :
      FwdMove counters thread (.enter false) counters
        { thread with guards := ⟨false, false⟩ :: thread.guards }
  | reopened (idle : thread.stage = .idle) (inside : 0 < thread.gFwdDepth) :
      FwdMove counters thread .hfWinOpen counters
        { thread with gHfWinEpoch := counters.gFwdEpoch, stage := .sampling false }
  | checked (idle : thread.stage = .idle) (inside : 0 < thread.gFwdDepth)
      (ok : thread.gHfWinOk = true) :
      FwdMove counters thread .hfWinValid counters { thread with stage := .checking }
  | dropped {outer rest} (idle : thread.stage = .idle)
      (guards : thread.guards = ⟨false, outer⟩ :: rest) :
      FwdMove counters thread .leave counters { thread with guards := rest }
  | unnested {rest} (idle : thread.stage = .idle)
      (guards : thread.guards = ⟨true, false⟩ :: rest) :
      FwdMove counters thread .leave counters
        { thread with gFwdDepth := thread.gFwdDepth - 1, guards := rest }
  | left {rest} (idle : thread.stage = .idle) (guards : thread.guards = ⟨true, true⟩ :: rest) :
      FwdMove counters thread .leave counters
        { thread with gFwdDepth := thread.gFwdDepth - 1, guards := rest, stage := .leaving }
  | bumped (due : thread.stage = .entering) :
      FwdMove counters thread .proceed
        { counters with gFwdEpoch := counters.gFwdEpoch + 1 } { thread with stage := .counting }
  | counted (due : thread.stage = .counting) :
      FwdMove counters thread .proceed
        { counters with gFwdInflight := counters.gFwdInflight + 1 }
        { thread with stage := .opening }
  | opened (due : thread.stage = .opening) :
      FwdMove counters thread .proceed counters
        { thread with gHfWinEpoch := counters.gFwdEpoch, stage := .sampling true }
  | sampled {constructing} (due : thread.stage = .sampling constructing) :
      FwdMove counters thread .proceed counters
        { thread with gHfWinOk := decide (counters.gFwdInflight = 1), stage := .idle }
  | returned (due : thread.stage = .checking) :
      FwdMove counters thread .proceed counters { thread with stage := .idle }
  | uncounts (due : thread.stage = .leaving) :
      FwdMove counters thread .proceed
        { counters with gFwdInflight := counters.gFwdInflight - 1 } { thread with stage := .idle }

theorem FwdThread.step_move (op : FwdOp) (counters : FwdCounters) (thread : FwdThread) :
    FwdMove counters thread op (thread.step op counters).1 (thread.step op counters).2 := by
  unfold FwdThread.step
  split
  next on idle =>
    cases on with
    | false => exact .uncounted idle
    | true =>
        rw [if_pos rfl]
        by_cases outside : thread.gFwdDepth = 0
        · simp only [outside, decide_true, if_true, Nat.zero_add]
          exact .outermost idle outside
        · simp only [outside, decide_false, if_false]
          rw [← idle]
          exact .nested idle (Nat.pos_of_ne_zero outside)
  next idle =>
    split
    next inside => exact .reopened idle inside
    next => exact .rest
  next idle =>
    split
    next known => exact .checked idle known.1 known.2.1
    next => exact .rest
  next idle =>
    split
    next => exact .rest
    next guard rest guards =>
      obtain ⟨counted, outer⟩ := guard
      cases counted with
      | false => exact .dropped idle guards
      | true =>
          cases outer with
          | false =>
              simp only [if_true, Bool.false_eq_true, if_false]
              rw [← idle]
              exact .unnested idle guards
          | true => exact .left idle guards
  next due => exact .bumped due
  next due => exact .counted due
  next due => exact .opened due
  next due => exact .sampled due
  next due => exact .returned due
  next due => exact .uncounts due
  next => exact .rest

/-! ## Nested guards -/

/-- The depth counts the guards that are counted, and the lowest of these is the outer one. -/
def Nested : List G4FwdGuard → Nat → Prop
  | [], depth => depth = 0
  | ⟨false, _⟩ :: rest, depth => Nested rest depth
  | ⟨true, outer⟩ :: rest, depth => ∃ below, depth = below + 1 ∧ outer = decide (below = 0) ∧
      Nested rest below

structure FwdThread.Sound (thread : FwdThread) : Prop where
  nested : Nested thread.guards thread.gFwdDepth
  inside : thread.stage ≠ .idle → thread.stage ≠ .leaving → 0 < thread.gFwdDepth
  outside : thread.stage = .leaving → thread.gFwdDepth = 0
  ok : thread.stage = .checking → thread.gHfWinOk = true

variable {counters after : FwdCounters} {thread moved : FwdThread} {op : FwdOp}

theorem FwdMove.sound (move : FwdMove counters thread op after moved) (sound : thread.Sound) :
    moved.Sound := by
  obtain ⟨nested, inside, outside, ok⟩ := sound
  have idleOnly : ∀ {stage : FwdStage}, thread.stage = .idle → stage ≠ .idle →
      thread.stage ≠ stage := fun idle other same => other (same.symm.trans idle)
  cases move with
  | rest => exact ⟨nested, inside, outside, ok⟩
  | outermost idle none =>
      rw [none] at nested
      exact ⟨⟨0, rfl, rfl, nested⟩, fun _ _ => Nat.one_pos, nofun, nofun⟩
  | nested idle deep =>
      refine ⟨⟨_, rfl, ?_, nested⟩, fun _ _ => Nat.succ_pos _,
        fun left => absurd left (idleOnly idle nofun),
        fun check => absurd check (idleOnly idle nofun)⟩
      rw [decide_eq_false (Nat.pos_iff_ne_zero.mp deep)]
  | uncounted idle => exact ⟨nested, inside, outside, ok⟩
  | reopened idle deep => exact ⟨nested, fun _ _ => deep, nofun, nofun⟩
  | checked idle deep holds => exact ⟨nested, fun _ _ => deep, nofun, fun _ => holds⟩
  | dropped idle guards =>
      rw [guards] at nested
      exact ⟨nested, inside, outside, ok⟩
  | unnested idle guards =>
      rw [guards] at nested
      obtain ⟨below, depth, outer, nested⟩ := nested
      rw [depth]
      exact ⟨nested, fun busy => absurd idle busy,
        fun left => absurd left (idleOnly idle nofun),
        fun check => absurd check (idleOnly idle nofun)⟩
  | left idle guards =>
      rw [guards] at nested
      obtain ⟨below, depth, outer, nested⟩ := nested
      rw [depth]
      exact ⟨nested, fun _ away => absurd rfl away, fun _ => of_decide_eq_true outer.symm, nofun⟩
  | bumped due => exact ⟨nested, fun _ _ => inside (by simp [due]) (by simp [due]), nofun, nofun⟩
  | counted due => exact ⟨nested, fun _ _ => inside (by simp [due]) (by simp [due]), nofun, nofun⟩
  | opened due => exact ⟨nested, fun _ _ => inside (by simp [due]) (by simp [due]), nofun, nofun⟩
  | sampled due => exact ⟨nested, fun busy => absurd rfl busy, nofun, nofun⟩
  | returned due => exact ⟨nested, fun busy => absurd rfl busy, nofun, nofun⟩
  | uncounts due => exact ⟨nested, fun busy => absurd rfl busy, nofun, nofun⟩

/-! ## The number of forwards in flight -/

/-- The signed counter changes with the threads it counts. -/
theorem FwdMove.inFlight (move : FwdMove counters thread op after moved) (sound : thread.Sound) :
    moved.inFlight = thread.inFlight ∧ after.gFwdInflight = counters.gFwdInflight ∨
      (thread.stage = .counting ∧ op = .proceed) ∧ thread.inFlight = false ∧
          moved.inFlight = true ∧ after.gFwdInflight = counters.gFwdInflight + 1 ∨
        thread.inFlight = true ∧ moved.inFlight = false ∧
          after.gFwdInflight = counters.gFwdInflight - 1 := by
  cases move with
  | rest => exact Or.inl ⟨rfl, rfl⟩
  | outermost idle none => simp [FwdThread.inFlight, idle, none]
  | nested idle deep => simp [FwdThread.inFlight, idle, deep]
  | uncounted idle => exact Or.inl ⟨rfl, rfl⟩
  | reopened idle deep => simp [FwdThread.inFlight, idle, deep]
  | checked idle deep ok => simp [FwdThread.inFlight, idle, deep]
  | dropped idle guards => exact Or.inl ⟨rfl, rfl⟩
  | unnested idle guards =>
      have nested := sound.nested
      rw [guards] at nested
      obtain ⟨below, depth, outer, _⟩ := nested
      have deep : 0 < below := Nat.pos_of_ne_zero (of_decide_eq_false outer.symm)
      simp [FwdThread.inFlight, idle, depth, deep]
  | left idle guards =>
      have nested := sound.nested
      rw [guards] at nested
      obtain ⟨below, depth, _⟩ := nested
      simp [FwdThread.inFlight, idle, depth]
  | bumped due => simp [FwdThread.inFlight, due]
  | counted due => exact Or.inr (Or.inl ⟨⟨due, rfl⟩, by simp [FwdThread.inFlight, due], rfl, rfl⟩)
  | opened due => simp [FwdThread.inFlight, due]
  | sampled due =>
      have deep := sound.inside (by simp [due]) (by simp [due])
      simp [FwdThread.inFlight, due, deep]
  | returned due =>
      have deep := sound.inside (by simp [due]) (by simp [due])
      simp [FwdThread.inFlight, due, deep]
  | uncounts due =>
      have none := sound.outside due
      simp [FwdThread.inFlight, due, none]

/-- Outside every guard, or not counted yet in the constructor of one. -/
def FwdThread.Quiet (thread : FwdThread) : Prop :=
  thread.stage = .entering ∨ thread.stage = .idle ∧ thread.gFwdDepth = 0

theorem FwdThread.Quiet.inside (quiet : thread.Quiet) (idle : thread.stage = .idle) :
    thread.gFwdDepth = 0 := by
  rcases quiet with entering | ⟨_, none⟩
  · rw [idle] at entering
    cases entering
  · exact none

/-- Only the first increment of a constructor changes the epoch, and a thread outside stays outside
up to then. -/
theorem FwdMove.quiet (move : FwdMove counters thread op after moved) (sound : thread.Sound) :
    after.gFwdEpoch = counters.gFwdEpoch ∧ (thread.Quiet → moved.Quiet) ∨
      thread.stage = .entering ∧ op = .proceed ∧
        after.gFwdEpoch = counters.gFwdEpoch + 1 := by
  cases move with
  | rest => exact Or.inl ⟨rfl, id⟩
  | outermost idle none => exact Or.inl ⟨rfl, fun _ => Or.inl rfl⟩
  | nested idle deep =>
      refine Or.inl ⟨rfl, fun quiet => ?_⟩
      rw [quiet.inside idle] at deep
      exact absurd deep (Nat.lt_irrefl 0)
  | uncounted idle => exact Or.inl ⟨rfl, id⟩
  | reopened idle deep =>
      refine Or.inl ⟨rfl, fun quiet => ?_⟩
      rw [quiet.inside idle] at deep
      exact absurd deep (Nat.lt_irrefl 0)
  | checked idle deep ok =>
      refine Or.inl ⟨rfl, fun quiet => ?_⟩
      rw [quiet.inside idle] at deep
      exact absurd deep (Nat.lt_irrefl 0)
  | dropped idle guards => exact Or.inl ⟨rfl, id⟩
  | unnested idle guards =>
      refine Or.inl ⟨rfl, fun quiet => Or.inr ⟨idle, ?_⟩⟩
      simp only [quiet.inside idle, Nat.zero_sub]
  | left idle guards =>
      refine Or.inl ⟨rfl, fun quiet => ?_⟩
      have nested := sound.nested
      rw [guards, quiet.inside idle] at nested
      obtain ⟨below, depth, _⟩ := nested
      cases depth
  | bumped due => exact Or.inr ⟨due, rfl, rfl⟩
  | counted due => exact Or.inl ⟨rfl, fun quiet => by simp [FwdThread.Quiet, due] at quiet⟩
  | opened due => exact Or.inl ⟨rfl, fun quiet => by simp [FwdThread.Quiet, due] at quiet⟩
  | sampled due => exact Or.inl ⟨rfl, fun quiet => by simp [FwdThread.Quiet, due] at quiet⟩
  | returned due => exact Or.inl ⟨rfl, fun quiet => by simp [FwdThread.Quiet, due] at quiet⟩
  | uncounts due => exact Or.inl ⟨rfl, fun quiet => by simp [FwdThread.Quiet, due] at quiet⟩

/-- A thread is in a window because it was, or because its `hf_win_open` has just ended. -/
theorem FwdMove.window (move : FwdMove counters thread op after moved) (sound : thread.Sound)
    (windowed : moved.InWindow) :
    moved.gHfWinEpoch = thread.gHfWinEpoch ∧ after.gFwdEpoch = counters.gFwdEpoch ∧
      (thread.InWindow ∧ moved.gHfWinOk = thread.gHfWinOk ∨
        op = .proceed ∧ (∃ constructing, thread.stage = .sampling constructing) ∧
          moved.gHfWinOk = decide (counters.gFwdInflight = 1)) := by
  obtain ⟨deep, stage⟩ := windowed
  cases move with
  | rest => exact ⟨rfl, rfl, Or.inl ⟨⟨deep, stage⟩, rfl⟩⟩
  | outermost idle none => simp at stage
  | nested idle inside => exact ⟨rfl, rfl, Or.inl ⟨⟨inside, Or.inl idle⟩, rfl⟩⟩
  | uncounted idle => exact ⟨rfl, rfl, Or.inl ⟨⟨deep, Or.inl idle⟩, rfl⟩⟩
  | reopened idle inside => simp at stage
  | checked idle inside ok => exact ⟨rfl, rfl, Or.inl ⟨⟨inside, Or.inl idle⟩, rfl⟩⟩
  | dropped idle guards => exact ⟨rfl, rfl, Or.inl ⟨⟨deep, Or.inl idle⟩, rfl⟩⟩
  | unnested idle guards =>
      have inside : 0 < thread.gFwdDepth := Nat.lt_of_lt_of_le deep (Nat.sub_le _ _)
      exact ⟨rfl, rfl, Or.inl ⟨⟨inside, Or.inl idle⟩, rfl⟩⟩
  | left idle guards => simp at stage
  | bumped due => simp at stage
  | counted due => simp at stage
  | opened due => simp at stage
  | sampled due => exact ⟨rfl, rfl, Or.inr ⟨rfl, ⟨_, due⟩, rfl⟩⟩
  | returned due =>
      have inside := sound.inside (by simp [due]) (by simp [due])
      exact ⟨rfl, rfl, Or.inl ⟨⟨inside, Or.inr due⟩, rfl⟩⟩
  | uncounts due =>
      have none := sound.outside due
      rw [none] at deep
      exact absurd deep (Nat.lt_irrefl 0)

/-! ## The invariant -/

namespace FwdState

variable {state : FwdState} {index : Nat}

theorem mem_others {other : FwdThread} :
    other ∈ state.others index ↔ ∃ place, place ≠ index ∧ state.threads[place]? = some other :=
  List.mem_eraseIdx_iff_getElem?

theorem step_cases (event : Nat × FwdOp) (state : FwdState) :
    step event state = state ∨ ∃ thread after moved,
      state.threads[event.1]? = some thread ∧
        FwdMove state.counters thread event.2 after moved ∧
          (step event state).counters = after ∧
            (step event state).threads[event.1]? = some moved ∧
              (∀ place, place ≠ event.1 →
                (step event state).threads[place]? = state.threads[place]?) ∧
                (step event state).threads.countP FwdThread.inFlight + thread.inFlight.toNat =
                  state.threads.countP FwdThread.inFlight + moved.inFlight.toNat := by
  cases found : state.threads[event.1]? with
  | none => exact Or.inl (by simp [step, found])
  | some thread =>
      refine Or.inr ⟨thread, _, _, rfl, thread.step_move event.2 state.counters, ?_⟩
      simp only [step, found]
      refine ⟨trivial, ?_, fun place away => ?_, countP_modify FwdThread.inFlight found⟩
      · rw [List.getElem?_modify_eq, found]
        rfl
      · rw [List.getElem?_modify_ne _ _ (Ne.symm away)]

/-- The signed counter is the number of threads in flight; while the epoch of a window stands, no
other thread has got past the first increment. -/
structure Sound (state : FwdState) : Prop where
  threads : ∀ (place : Nat) (thread : FwdThread), state.threads[place]? = some thread →
    thread.Sound
  counts : state.counters.gFwdInflight =
    UInt32.ofNat (state.threads.countP FwdThread.inFlight)
  few : state.threads.countP FwdThread.inFlight < 2 ^ 32
  alone : ∀ (index : Nat) (thread : FwdThread), state.threads[index]? = some thread →
    thread.InWindow → thread.gHfWinOk = true →
      state.counters.gFwdEpoch = thread.gHfWinEpoch →
        ∀ (place : Nat) (other : FwdThread), place ≠ index →
          state.threads[place]? = some other → other.Quiet

theorem start_sound (count : Nat) : (start count).Sound := by
  have fresh : ∀ (place : Nat) (thread : FwdThread),
      (start count).threads[place]? = some thread → thread = ⟨0, false, 0, [], .idle⟩ := by
    intro place thread found
    exact List.eq_of_mem_replicate (List.mem_of_getElem? found)
  have none : (start count).threads.countP FwdThread.inFlight = 0 := by
    rw [start, List.countP_eq_zero]
    intro thread member
    rw [List.eq_of_mem_replicate member]
    decide
  refine ⟨?_, ?_, ?_, ?_⟩
  · intro place thread found
    rw [fresh place thread found]
    exact ⟨rfl, fun busy => absurd rfl busy, nofun, nofun⟩
  · rw [none]
    rfl
  · rw [none]
    decide
  · intro index thread found windowed
    rw [fresh index thread found] at windowed
    exact absurd windowed.1 (Nat.lt_irrefl 0)

/-- Whoever is counted beside one more thread is not the only one counted. -/
theorem other_counted {place : Nat} {thread other : FwdThread}
    (only : state.threads.countP FwdThread.inFlight = 1) (away : place ≠ index)
    (here : state.threads[index]? = some thread) (there : state.threads[place]? = some other)
    (counted : thread.inFlight = true) : other.inFlight = false := by
  by_contra also
  have moved := @countP_modify _ state.threads index (fun _ => ⟨0, false, 0, [], .idle⟩) thread
    FwdThread.inFlight here
  have stays : other ∈ state.threads.modify index fun _ => ⟨0, false, 0, [], .idle⟩ := by
    apply List.mem_of_getElem?
    rw [List.getElem?_modify_ne _ _ (Ne.symm away)]
    exact there
  have positive := List.countP_pos_iff.mpr ⟨other, stays, Bool.not_eq_false _ ▸ also⟩
  have gone : FwdThread.inFlight ⟨0, false, 0, [], .idle⟩ = false := rfl
  rw [counted, gone, only] at moved
  simp only [Bool.toNat_true, Bool.toNat_false] at moved
  omega

/-- A window that opens with a count of 1 finds every other thread outside. -/
theorem Sound.alone_sampled (sound : state.Sound) {thread : FwdThread} {constructing : Bool}
    (here : state.threads[index]? = some thread) (due : thread.stage = .sampling constructing)
    (kept : state.KeepsCount (index, .proceed))
    (single : state.counters.gFwdInflight = 1)
    (current : state.counters.gFwdEpoch = thread.gHfWinEpoch) :
    ∀ (place : Nat) (other : FwdThread), place ≠ index → state.threads[place]? = some other →
      other.Quiet := by
  intro place other away there
  have only : state.threads.countP FwdThread.inFlight = 1 := by
    have counts := sound.counts
    rw [single] at counts
    have value := congrArg UInt32.toNat counts
    rw [UInt32.toNat_ofNat', Nat.mod_eq_of_lt sound.few] at value
    exact value.symm
  have counted : thread.inFlight = true := by simp [FwdThread.inFlight, due]
  have uncounted := other_counted only away here there counted
  have undisturbed := kept thread here rfl
  rw [due] at undisturbed
  have between := undisturbed single current other (mem_others.mpr ⟨place, away, there⟩)
  unfold FwdThread.inFlight at uncounted
  cases stage : other.stage with
  | idle =>
      rw [stage] at uncounted
      exact Or.inr ⟨stage, Nat.eq_zero_of_not_pos (of_decide_eq_false uncounted)⟩
  | entering => exact Or.inl stage
  | counting => exact absurd stage between
  | _ => simp [stage] at uncounted

theorem Sound.step_counts {event : Nat × FwdOp} (kept : state.KeepsCount event)
    (sound : state.Sound) :
    (FwdState.step event state).counters.gFwdInflight =
        UInt32.ofNat ((FwdState.step event state).threads.countP FwdThread.inFlight) ∧
      (FwdState.step event state).threads.countP FwdThread.inFlight < 2 ^ 32 := by
  have counts := sound.counts
  have few := sound.few
  rcases step_cases event state with same | ⟨thread, after, moved, here, move, counters, -, -,
    balance⟩
  · rw [same]
    exact ⟨counts, few⟩
  rw [counters]
  rcases move.inFlight (sound.threads event.1 thread here) with ⟨stays, signed⟩ |
    ⟨⟨due, op⟩, before, now, signed⟩ | ⟨before, now, signed⟩
  · rw [stays, Nat.add_right_cancel_iff] at balance
    rw [balance, signed]
    exact ⟨counts, few⟩
  · have room := kept thread here op
    rw [due] at room
    have bound : state.threads.countP FwdThread.inFlight + 1 < 2 ^ 32 := room
    simp only [before, now, Bool.toNat_false, Bool.toNat_true, Nat.add_zero] at balance
    rw [balance, signed, counts]
    exact ⟨(UInt32.ofNat_add _ _).symm, bound⟩
  · simp only [before, now, Bool.toNat_false, Bool.toNat_true, Nat.add_zero] at balance
    rw [signed, counts, ← balance]
    refine ⟨?_, by omega⟩
    rw [UInt32.ofNat_add]
    exact UInt32.add_sub_cancel _ _

theorem Sound.step {event : Nat × FwdOp} (kept : state.KeepsCount event) (sound : state.Sound) :
    (FwdState.step event state).Sound := by
  obtain ⟨counts, few⟩ := sound.step_counts kept
  rcases step_cases event state with same | ⟨thread, after, moved, here, move, counters, now, rest,
    -⟩
  · rw [same]
    exact sound
  have threadSound := sound.threads event.1 thread here
  refine ⟨?_, counts, few, ?_⟩
  · intro place other there
    by_cases own : place = event.1
    · subst own
      rw [now] at there
      cases there
      exact move.sound threadSound
    · rw [rest place own] at there
      exact sound.threads place other there
  · rw [counters]
    intro index windowed found inWindow ok current place other away there
    by_cases own : index = event.1
    · subst own
      rw [now] at found
      cases found
      obtain ⟨epoch, clock, before⟩ := move.window threadSound inWindow
      rw [rest place away] at there
      rw [epoch, clock] at current
      rcases before with ⟨earlier, flag⟩ | ⟨op, ⟨constructing, due⟩, flag⟩
      · exact sound.alone event.1 thread here earlier (flag ▸ ok) current place other away there
      · have single := of_decide_eq_true (flag ▸ ok)
        have undisturbed : state.KeepsCount (event.1, .proceed) := op ▸ kept
        exact sound.alone_sampled here due undisturbed single current place other away there
    · rw [rest index own] at found
      rcases move.quiet threadSound with ⟨unmoved, outside⟩ | ⟨due, op, bumped⟩
      · rw [unmoved] at current
        have quiet := sound.alone index windowed found inWindow ok current
        by_cases mover : place = event.1
        · subst mover
          rw [now] at there
          cases there
          exact outside (quiet event.1 thread away here)
        · rw [rest place mover] at there
          exact quiet place other away there
      · have undisturbed := kept thread here op
        rw [due] at undisturbed
        have apart := undisturbed windowed (mem_others.mpr ⟨index, own, found⟩) inWindow.1
        exact absurd (bumped.symm.trans current) apart

/-- The thread is in a window that nobody has entered since it opened as the only one. -/
def Untouched (state : FwdState) (index : Nat) : Prop :=
  ∃ thread, state.threads[index]? = some thread ∧ thread.InWindow ∧ thread.gHfWinOk = true ∧
    state.counters.gFwdEpoch = thread.gHfWinEpoch

def InWindow (state : FwdState) (index : Nat) : Prop :=
  ∃ thread ∈ state.threads[index]?, thread.InWindow

instance (state : FwdState) (index : Nat) : Decidable (state.InWindow index) :=
  inferInstanceAs (Decidable (∃ thread ∈ state.threads[index]?, _))

/-- The epoch of a window does not come back. -/
theorem Sound.untouched_before {event : Nat × FwdOp} (kept : state.KeepsCount event)
    (sound : state.Sound) (before : state.InWindow index)
    (behind : (FwdState.step event state).Untouched index) : state.Untouched index := by
  obtain ⟨thread, here, windowed⟩ := before
  obtain ⟨later, there, windowedLater, ok, current⟩ := behind
  refine ⟨thread, here, windowed, ?_⟩
  rcases step_cases event state with same | ⟨mover, after, moved, found, move, counters, now, rest,
    -⟩
  · rw [same] at there current
    cases here.symm.trans there
    exact ⟨ok, current⟩
  have moverSound := sound.threads event.1 mover found
  rw [counters] at current
  by_cases own : index = event.1
  · subst own
    cases here.symm.trans found
    cases now.symm.trans there
    obtain ⟨epoch, clock, kind⟩ := move.window moverSound windowedLater
    rw [epoch, clock] at current
    rcases kind with ⟨-, flag⟩ | ⟨-, ⟨constructing, due⟩, -⟩
    · exact ⟨flag ▸ ok, current⟩
    · have stage := windowed.2
      simp [due] at stage
  · rw [rest index own] at there
    cases here.symm.trans there
    refine ⟨ok, ?_⟩
    rcases move.quiet moverSound with ⟨unmoved, -⟩ | ⟨due, op, bumped⟩
    · exact unmoved.symm.trans current
    · have undisturbed := kept mover found op
      rw [due] at undisturbed
      have apart := undisturbed thread (mem_others.mpr ⟨index, own, here⟩) windowed.1
      exact absurd (bumped.symm.trans current) apart

theorem Sound.untouched_throughout {events : List (Nat × FwdOp)}
    (kept : GuardedRun FwdState.step (fun event state => state.KeepsCount event) events state)
    (sound : state.Sound)
    (stays : ∀ seen, seen <+: events → (serveAll FwdState.step seen state).InWindow index)
    (behind : (serveAll FwdState.step events state).Untouched index) : state.Untouched index := by
  induction events generalizing state with
  | nil => exact behind
  | cons event rest inductionHypothesis =>
      apply sound.untouched_before kept.1 (stays [] List.nil_prefix)
      apply inductionHypothesis kept.2 (sound.step kept.1)
      · intro seen front
        exact stays (event :: seen) (List.cons_prefix_cons.mpr ⟨rfl, front⟩)
      · exact behind

theorem ReturnsValid.untouched (valid : state.ReturnsValid index) (sound : state.Sound) :
    state.Untouched index := by
  obtain ⟨thread, here, due, current⟩ := valid
  have threadSound := sound.threads index thread here
  have deep := threadSound.inside (by simp [due]) (by simp [due])
  exact ⟨thread, here, ⟨deep, Or.inr due⟩, threadSound.ok due, current⟩

theorem Untouched.alone (untouched : state.Untouched index) (sound : state.Sound) :
    ∀ other ∈ state.others index, ¬ other.InForward := by
  obtain ⟨thread, here, windowed, ok, current⟩ := untouched
  intro other member inForward
  obtain ⟨place, away, there⟩ := mem_others.mp member
  rcases sound.alone index thread here windowed ok current place other away there with
    entering | ⟨_, none⟩
  · have stage := inForward.2
    simp [entering] at stage
  · exact Nat.ne_of_gt inForward.1 none

/-! ## Whole runs -/

theorem run_append (count : Nat) (front mid : List (Nat × FwdOp)) :
    run count (front ++ mid) = serveAll FwdState.step mid (run count front) :=
  serveAll_append FwdState.step front mid (start count)

/-- A thread enters, opens its window, and checks it, with no other thread about. -/
def loneForward : List (Nat × FwdOp) :=
  [(0, .enter true), (0, .proceed), (0, .proceed), (0, .proceed), (0, .proceed)]

/-- Thread 1 has bumped the epoch but is not counted when thread 0 opens its window, and its whole
forward runs before thread 0 looks again. -/
def hiddenForward : List (Nat × FwdOp) :=
  [(1, .proceed), (1, .proceed), (1, .proceed), (1, .leave), (1, .proceed), (0, .hfWinValid)]

def openedBetween : List (Nat × FwdOp) :=
  [(0, .enter true), (0, .proceed), (0, .proceed), (1, .enter true), (1, .proceed), (0, .proceed),
    (0, .proceed)]

end FwdState

end KairosEngine.Cuda
