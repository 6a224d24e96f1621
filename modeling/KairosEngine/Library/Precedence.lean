import KairosEngine.Library.Streams
import Mathlib.Logic.Relation

/-!
# What an operation has to follow

An operation follows those before it in its stream and the record its wait names.  An operation
is settled for a stream when everything still to be issued there follows it, and an event covers
what everything that waits for it follows.
-/

namespace KairosEngine.Library

universe u v

namespace Device

variable {Stream : Type u} {Work : Type v}

/-- The second operation cannot run before the first. -/
def Edge (device : Device Stream Work) (i j : Nat) : Prop :=
  ∃ first second, device.log[i]? = some first ∧ device.log[j]? = some second ∧
    (i < j ∧ first.stream = second.stream ∨ second.after = some i)

def Precedes (device : Device Stream Work) : Nat → Nat → Prop := Relation.TransGen device.Edge

def RanBefore (device : Device Stream Work) (i j : Nat) : Prop :=
  j ∈ device.ran ∧ device.ran.idxOf i < device.ran.idxOf j

/-- What ran was issued once and ran behind everything it had to follow. -/
structure Ordered (device : Device Stream Work) : Prop where
  inside : ∀ index ∈ device.ran, index < device.log.length
  once : device.ran.Nodup
  awaited : ∀ j ∈ device.ran, ∀ operation, device.log[j]? = some operation →
    ∀ event, operation.after = some event → event ∈ device.ran
  edges : ∀ i j, device.Edge i j → j ∈ device.ran → device.RanBefore i j

/-- In every continuation the first runs before the second. -/
def Sooner (device : Device Stream Work) (i j : Nat) : Prop :=
  device.Precedes i j ∨ (i ∈ device.ran ∧ j ∉ device.ran) ∨ device.RanBefore i j

/-- Everything still to be issued to the stream runs behind the operation. -/
def Settled (device : Device Stream Work) (stream : Stream) (i : Nat) : Prop :=
  i ∈ device.ran ∨ ∃ j operation, device.log[j]? = some operation ∧
    operation.stream = stream ∧ (i = j ∨ device.Precedes i j)

/-- Everything that waits for the event runs behind the operation. -/
def Covered (device : Device Stream Work) (event i : Nat) : Prop :=
  i ∈ device.ran ∨ device.Precedes i event

variable {device : Device Stream Work} {i j k index : Nat} {stream : Stream}
variable {operation : Issued Stream Work}

theorem Edge.issued (edge : device.Edge i j) : i < device.log.length ∧ j < device.log.length := by
  obtain ⟨first, second, atFirst, atSecond, _⟩ := edge
  exact ⟨(List.getElem?_eq_some_iff.mp atFirst).1, (List.getElem?_eq_some_iff.mp atSecond).1⟩

theorem RanBefore.first_mem (before : device.RanBefore i j) : i ∈ device.ran := by
  obtain ⟨_, sooner⟩ := before
  exact List.idxOf_lt_length_iff.mp (Nat.lt_of_lt_of_le sooner List.idxOf_le_length)

theorem RanBefore.trans (first : device.RanBefore i j) (second : device.RanBefore j k) :
    device.RanBefore i k :=
  ⟨second.1, Nat.lt_trans first.2 second.2⟩

theorem Precedes.ranBefore (precedes : device.Precedes i j) (ordered : device.Ordered)
    (ran : j ∈ device.ran) : device.RanBefore i j := by
  induction precedes with
  | single edge => exact ordered.edges _ _ edge ran
  | tail _ edge inductionHypothesis =>
      have last := ordered.edges _ _ edge ran
      exact (inductionHypothesis last.first_mem).trans last

theorem Sooner.ranBefore (sooner : device.Sooner i j) (ordered : device.Ordered)
    (ran : j ∈ device.ran) : device.RanBefore i j := by
  rcases sooner with precedes | ⟨_, later⟩ | before
  · exact precedes.ranBefore ordered ran
  · exact absurd ran later
  · exact before

/-- What an event that ran covers has run. -/
theorem Covered.ran {event : Nat} (covered : device.Covered event i) (ordered : device.Ordered)
    (ran : event ∈ device.ran) : i ∈ device.ran := by
  rcases covered with done | precedes
  · exact done
  · exact (precedes.ranBefore ordered ran).first_mem

/-! ## Issuing -/

theorem Edge.issue (edge : device.Edge i j) (operation : Issued Stream Work) :
    (device.issue operation).Edge i j := by
  obtain ⟨first, second, atFirst, atSecond, follows⟩ := edge
  refine ⟨first, second, ?_, ?_, follows⟩
  · rw [log_issue_of_lt (List.getElem?_eq_some_iff.mp atFirst).1]
    exact atFirst
  · rw [log_issue_of_lt (List.getElem?_eq_some_iff.mp atSecond).1]
    exact atSecond

theorem Precedes.issue (precedes : device.Precedes i j) (operation : Issued Stream Work) :
    (device.issue operation).Precedes i j :=
  Relation.TransGen.mono (fun _ _ edge => Edge.issue edge operation) _ _ precedes

theorem Sooner.issue (sooner : device.Sooner i j) (operation : Issued Stream Work) :
    (device.issue operation).Sooner i j := by
  rcases sooner with precedes | states | before
  · exact Or.inl (precedes.issue operation)
  · exact Or.inr (Or.inl states)
  · exact Or.inr (Or.inr before)

theorem Settled.issue (settled : device.Settled stream i) (operation : Issued Stream Work) :
    (device.issue operation).Settled stream i := by
  rcases settled with ran | ⟨j, there, present, onStream, follows⟩
  · exact Or.inl ran
  · refine Or.inr ⟨j, there, ?_, onStream, ?_⟩
    · rw [log_issue_of_lt (List.getElem?_eq_some_iff.mp present).1]
      exact present
    · rcases follows with same | precedes
      · exact Or.inl same
      · exact Or.inr (precedes.issue operation)

theorem Covered.issue {event : Nat} (covered : device.Covered event i)
    (operation : Issued Stream Work) : (device.issue operation).Covered event i := by
  rcases covered with ran | precedes
  · exact Or.inl ran
  · exact Or.inr (precedes.issue operation)

theorem log_issue_ticket (device : Device Stream Work) (operation : Issued Stream Work) :
    (device.issue operation).log[device.ticket]? = some operation :=
  List.getElem?_concat_length

theorem settled_ticket (device : Device Stream Work) (operation : Issued Stream Work) :
    (device.issue operation).Settled operation.stream device.ticket :=
  Or.inr ⟨device.ticket, operation, log_issue_ticket device operation, rfl, Or.inl rfl⟩

/-- A new operation of the stream runs behind what is settled for it. -/
theorem Settled.precedes_ticket (settled : device.Settled operation.stream i) :
    i ∈ device.ran ∨ (device.issue operation).Precedes i device.ticket := by
  rcases settled with ran | ⟨j, there, present, onStream, follows⟩
  · exact Or.inl ran
  · have inside := (List.getElem?_eq_some_iff.mp present).1
    have edge : (device.issue operation).Edge j device.ticket := by
      refine ⟨there, operation, ?_, log_issue_ticket device operation, Or.inl ⟨inside, onStream⟩⟩
      rw [log_issue_of_lt inside]
      exact present
    rcases follows with rfl | precedes
    · exact Or.inr (.single edge)
    · exact Or.inr (.tail (precedes.issue operation) edge)

theorem Settled.sooner_ticket (settled : device.Settled operation.stream i)
    (ordered : device.Ordered) : (device.issue operation).Sooner i device.ticket := by
  rcases settled.precedes_ticket with ran | precedes
  · exact Or.inr (Or.inl ⟨ran, fun late => Nat.lt_irrefl _ (ordered.inside _ late)⟩)
  · exact Or.inl precedes

theorem Settled.covered_ticket (settled : device.Settled operation.stream i) :
    (device.issue operation).Covered device.ticket i :=
  settled.precedes_ticket

/-- Behind a wait everything the event covers is settled. -/
theorem Covered.settled_wait {event : Nat} (covered : device.Covered event i) (stream : Stream) :
    (device.wait stream (some event)).Settled stream i := by
  rcases covered with ran | precedes
  · exact Or.inl ran
  · obtain ⟨middle, _, edge⟩ := Relation.TransGen.tail'_iff.mp precedes
    have inside := edge.issued.2
    let operation : Issued Stream Work := { stream, work := none, after := some event }
    have waits : (device.issue operation).Edge event device.ticket := by
      refine ⟨device.log[event], operation, ?_, log_issue_ticket device operation, Or.inr rfl⟩
      rw [log_issue_of_lt inside, List.getElem?_eq_getElem inside]
    exact Or.inr ⟨device.ticket, operation, log_issue_ticket device operation, rfl,
      Or.inr (.tail (precedes.issue operation) waits)⟩

/-- A record on one stream and a wait for it on another. -/
theorem Settled.cross (settled : device.Settled stream i) (other : Stream) :
    ((device.record stream).wait other (some device.ticket)).Settled other i := by
  have covered := @Settled.covered_ticket _ _ device i ⟨stream, none, none⟩ settled
  exact covered.settled_wait other

theorem Ordered.issue (ordered : device.Ordered) (operation : Issued Stream Work) :
    (device.issue operation).Ordered := by
  refine ⟨fun index ran => ?_, ordered.once, fun j ran second present event waits => ?_,
    fun i j edge ran => ?_⟩
  · have issued := ordered.inside index ran
    rw [Device.issue, List.length_append]
    exact Nat.lt_add_right 1 issued
  · rw [log_issue_of_lt (ordered.inside j ran)] at present
    exact ordered.awaited j ran second present event waits
  · apply ordered.edges i j _ ran
    obtain ⟨first, second, atFirst, atSecond, follows⟩ := edge
    rw [log_issue_of_lt (ordered.inside j ran)] at atSecond
    have inside : i < device.log.length := by
      rcases follows with ⟨before, _⟩ | waits
      · exact Nat.lt_trans before (ordered.inside j ran)
      · exact ordered.inside i (ordered.awaited j ran second atSecond i waits)
    rw [log_issue_of_lt inside] at atFirst
    exact ⟨first, second, atFirst, atSecond, follows⟩

/-! ## A growing log -/

def issueAll (device : Device Stream Work) (operations : List (Issued Stream Work)) :
    Device Stream Work :=
  { device with log := device.log ++ operations }

variable {operations : List (Issued Stream Work)}

/-- What a single issue preserves is preserved while the log grows. -/
theorem issueAll_preserves {invariant : Device Stream Work → Prop}
    (kept : ∀ device operation, invariant device → invariant (device.issue operation))
    (initial : invariant device) : invariant (device.issueAll operations) := by
  induction operations generalizing device with
  | nil => simpa only [issueAll, List.append_nil] using initial
  | cons operation rest inductionHypothesis =>
      have later := inductionHypothesis (kept device operation initial)
      simpa only [issueAll, Device.issue, List.append_assoc, List.singleton_append] using later

theorem Ordered.issueAll (ordered : device.Ordered) (operations : List (Issued Stream Work)) :
    (device.issueAll operations).Ordered :=
  issueAll_preserves (fun _ operation kept => Ordered.issue kept operation) ordered

theorem Sooner.issueAll (sooner : device.Sooner i j) (operations : List (Issued Stream Work)) :
    (device.issueAll operations).Sooner i j :=
  @issueAll_preserves _ _ device operations (fun device => device.Sooner i j)
    (fun _ operation kept => kept.issue operation) sooner

theorem Settled.issueAll (settled : device.Settled stream i)
    (operations : List (Issued Stream Work)) : (device.issueAll operations).Settled stream i :=
  @issueAll_preserves _ _ device operations (fun device => device.Settled stream i)
    (fun _ operation kept => kept.issue operation) settled

theorem Covered.issueAll {event : Nat} (covered : device.Covered event i)
    (operations : List (Issued Stream Work)) : (device.issueAll operations).Covered event i :=
  @issueAll_preserves _ _ device operations (fun device => device.Covered event i)
    (fun _ operation kept => kept.issue operation) covered

theorem Precedes.issueAll (precedes : device.Precedes i j)
    (operations : List (Issued Stream Work)) : (device.issueAll operations).Precedes i j :=
  @issueAll_preserves _ _ device operations (fun device => device.Precedes i j)
    (fun _ operation kept => kept.issue operation) precedes

theorem log_issueAll_of_some (present : device.log[i]? = some operation) :
    (device.issueAll operations).log[i]? = some operation := by
  rw [issueAll, List.getElem?_append_left (List.getElem?_eq_some_iff.mp present).1, present]

theorem log_issueAll_ticket (device : Device Stream Work)
    (operations : List (Issued Stream Work)) (k : Nat) :
    (device.issueAll operations).log[device.ticket + k]? = operations[k]? := by
  rw [issueAll, ticket, List.getElem?_append_right (Nat.le_add_right _ _), Nat.add_sub_cancel_left]

/-- What a grown log has, it had before or it is new. -/
theorem log_issueAll_cases (present : (device.issueAll operations).log[i]? = some operation) :
    device.log[i]? = some operation ∨ ∃ k, i = device.ticket + k ∧ operations[k]? = some operation := by
  by_cases old : i < device.log.length
  · rw [issueAll, List.getElem?_append_left old] at present
    exact Or.inl present
  · rw [issueAll, List.getElem?_append_right (Nat.le_of_not_lt old)] at present
    refine Or.inr ⟨i - device.log.length, ?_, present⟩
    rw [ticket]
    omega

/-- All new operations of the stream run behind what is settled for it. -/
theorem Settled.precedes_issueAll (settled : device.Settled stream i) {k : Nat}
    (present : operations[k]? = some operation) (onStream : operation.stream = stream) :
    i ∈ device.ran ∨ (device.issueAll operations).Precedes i (device.ticket + k) := by
  rcases settled with ran | ⟨j, there, inLog, same, follows⟩
  · exact Or.inl ran
  · have edge : (device.issueAll operations).Edge j (device.ticket + k) := by
      refine ⟨there, operation, log_issueAll_of_some inLog, ?_, Or.inl ⟨?_, same.trans onStream.symm⟩⟩
      · rw [log_issueAll_ticket, present]
      · exact Nat.lt_add_right k (List.getElem?_eq_some_iff.mp inLog).1
    rcases follows with rfl | precedes
    · exact Or.inr (.single edge)
    · exact Or.inr (.tail (precedes.issueAll operations) edge)

/-- An operation is settled for its stream. -/
theorem settled_of_stream (present : device.log[i]? = some operation)
    (onStream : operation.stream = stream) : device.Settled stream i :=
  Or.inr ⟨i, operation, present, onStream, Or.inl rfl⟩

theorem ordered_empty : (empty : Device Stream Work).Ordered where
  inside := fun _ member => absurd member List.not_mem_nil
  once := List.nodup_nil
  awaited := fun _ member => absurd member List.not_mem_nil
  edges := fun _ _ _ member => absurd member List.not_mem_nil

/-! ## Running -/

theorem RanBefore.run (before : device.RanBefore i j) (index : Nat) :
    (device.run index).RanBefore i j := by
  refine ⟨List.mem_append_left _ before.1, ?_⟩
  rw [Device.run, List.idxOf_append_of_mem before.first_mem, List.idxOf_append_of_mem before.1]
  exact before.2

theorem ranBefore_run (ran : i ∈ device.ran) (fresh : index ∉ device.ran) :
    (device.run index).RanBefore i index := by
  refine ⟨List.mem_append_right _ (List.mem_singleton_self _), ?_⟩
  rw [Device.run, List.idxOf_append_of_mem ran, List.idxOf_append_of_notMem fresh]
  exact Nat.lt_of_lt_of_le (List.idxOf_lt_length_of_mem ran) (Nat.le_add_right _ _)

theorem Precedes.run (precedes : device.Precedes i j) (index : Nat) :
    (device.run index).Precedes i j := precedes

theorem Sooner.run (sooner : device.Sooner i j) (fresh : index ∉ device.ran) :
    (device.run index).Sooner i j := by
  rcases sooner with precedes | ⟨ran, later⟩ | before
  · exact Or.inl (precedes.run index)
  · by_cases now : j = index
    · subst now
      exact Or.inr (Or.inr (ranBefore_run ran fresh))
    · refine Or.inr (Or.inl ⟨List.mem_append_left _ ran, fun member => ?_⟩)
      rcases List.mem_append.mp member with old | new
      · exact later old
      · exact now (List.mem_singleton.mp new)
  · exact Or.inr (Or.inr (before.run index))

theorem Settled.run (settled : device.Settled stream i) (index : Nat) :
    (device.run index).Settled stream i := by
  rcases settled with ran | behind
  · exact Or.inl (List.mem_append_left _ ran)
  · exact Or.inr behind

theorem Covered.run {event : Nat} (covered : device.Covered event i) (index : Nat) :
    (device.run index).Covered event i := by
  rcases covered with ran | precedes
  · exact Or.inl (List.mem_append_left _ ran)
  · exact Or.inr (precedes.run index)

section Runs

variable [DecidableEq Stream]

theorem runnable_fresh (ready : device.runnable index = true) : index ∉ device.ran := by
  unfold runnable at ready
  cases present : device.log[index]? with
  | none =>
      rw [present] at ready
      cases ready
  | some operation =>
      simp only [present, Bool.and_eq_true, decide_eq_true_eq] at ready
      exact ready.1.1

theorem runnable_awaited (ready : device.runnable index = true)
    (present : device.log[index]? = some operation) {event : Nat}
    (waits : operation.after = some event) : event ∈ device.ran := by
  simp only [runnable, present, Bool.and_eq_true, waits, Option.all_some,
    decide_eq_true_eq] at ready
  exact ready.2

theorem Ordered.run (ordered : device.Ordered) (ready : device.runnable index = true) :
    (device.run index).Ordered := by
  have fresh := runnable_fresh ready
  refine ⟨fun other ran => ?_, ?_, fun j ran operation present event waits => ?_,
    fun i j edge ran => ?_⟩
  · rcases List.mem_append.mp ran with old | new
    · exact ordered.inside other old
    · rw [List.mem_singleton.mp new]
      exact @runnable_issued _ _ device _ index ready
  · refine List.nodup_append.mpr ⟨ordered.once, List.pairwise_singleton _ _, ?_⟩
    intro first member second new same
    rw [List.mem_singleton.mp new] at same
    exact fresh (same ▸ member)
  · rcases List.mem_append.mp ran with old | new
    · exact List.mem_append_left _ (ordered.awaited j old operation present event waits)
    · obtain rfl := List.mem_singleton.mp new
      exact List.mem_append_left _ (runnable_awaited ready present waits)
  · rcases List.mem_append.mp ran with old | new
    · exact (ordered.edges i j edge old).run index
    · obtain rfl := List.mem_singleton.mp new
      obtain ⟨first, second, atFirst, atSecond, follows⟩ := edge
      rcases follows with ⟨before, same⟩ | waits
      · exact ranBefore_run (runnable_fifo ready before atFirst atSecond same) fresh
      · exact ranBefore_run (runnable_awaited ready atSecond waits) fresh

end Runs

/-! ## What was written last -/

/-- The last work of a kind that ran. -/
def held (device : Device Stream Work) (kind : Work → Bool) : Option Work :=
  device.ran.reverse.findSome? fun index =>
    (device.log[index]?.bind fun operation => operation.work).filter kind

/-- The kind of work was last done by the operation behind which no other of it ran. -/
theorem held_of_last {kind : Work → Bool} {work : Work} (ordered : device.Ordered)
    (ran : i ∈ device.ran) (present : device.log[i]? = some operation)
    (does : operation.work = some work) (fits : kind work = true)
    (last : ∀ j ∈ device.ran, ∀ other, device.log[j]? = some other →
      other.work.any kind = true → j ≠ i → device.RanBefore j i) :
    device.held kind = some work := by
  obtain ⟨front, back, split, first⟩ := List.eq_append_cons_of_mem ran
  have once := ordered.once
  rw [split] at once
  unfold held
  rw [split, List.reverse_append, List.reverse_cons, List.append_assoc, List.findSome?_append]
  have nothing : (back.reverse.findSome? fun index =>
      (device.log[index]?.bind fun operation => operation.work).filter kind) = none := by
    rw [List.findSome?_eq_none_iff]
    intro j member
    have behind : j ∈ back := List.mem_reverse.mp member
    have different : j ≠ i := by
      intro same
      subst same
      exact (List.nodup_cons.mp (List.nodup_append.mp once).2.1).1 behind
    have outside : j ∉ front := by
      intro early
      exact (List.nodup_append.mp once).2.2 j early j (List.mem_cons_of_mem _ behind) rfl
    cases there : device.log[j]? with
    | none => rfl
    | some other =>
        rw [Option.bind_some]
        cases work_eq : other.work with
        | none => rfl
        | some done =>
            by_cases fits : kind done = true
            · have member : j ∈ device.ran := by
                rw [split]
                exact List.mem_append_right _ (List.mem_cons_of_mem _ behind)
              have fitting : other.work.any kind = true := by
                rw [work_eq, Option.any_some]
                exact fits
              have before := last j member other there fitting different
              have sooner := before.2
              rw [split, List.idxOf_append_of_notMem outside, List.idxOf_append_of_notMem first,
                List.idxOf_cons_self] at sooner
              omega
            · rw [Option.filter_some_neg (Bool.not_eq_true _ ▸ fits)]
  rw [nothing, Option.none_or, List.singleton_append, List.findSome?_cons, present,
    Option.bind_some, does, Option.filter_some_pos fits]

/-! ## A stream that has waited for nothing since a record -/

/-- What is settled for the stream is covered by a record on it behind which it took no wait,
or stands on the stream behind the record. -/
theorem Settled.covered_of_quiet {mark : Nat} {record : Issued Stream Work}
    (present : device.log[mark]? = some record) (onStream : record.stream = stream)
    (quiet : ∀ j operation, mark < j → device.log[j]? = some operation →
      operation.stream = stream → operation.after = none)
    (settled : device.Settled stream i) :
    device.Covered mark i ∨ ∃ operation, device.log[i]? = some operation ∧
      operation.stream = stream ∧ mark ≤ i := by
  rcases settled with ran | ⟨j, operation, there, same, follows⟩
  · exact Or.inl (Or.inl ran)
  · induction j using Nat.strongRecOn generalizing operation with
    | _ j inductionHypothesis =>
        by_cases early : j < mark
        · have edge : device.Edge j mark :=
            ⟨operation, record, there, present, Or.inl ⟨early, same.trans onStream.symm⟩⟩
          rcases follows with rfl | precedes
          · exact Or.inl (Or.inr (.single edge))
          · exact Or.inl (Or.inr (.tail precedes edge))
        · rcases follows with rfl | precedes
          · exact Or.inr ⟨operation, there, same, Nat.le_of_not_lt early⟩
          · by_cases standing : j = mark
            · subst standing
              exact Or.inl (Or.inr precedes)
            · have behind : mark < j := by omega
              obtain ⟨middle, follows, edge⟩ := Relation.TransGen.tail'_iff.mp precedes
              obtain ⟨first, second, atFirst, atSecond, before | waits⟩ := edge
              · obtain rfl : operation = second := Option.some.inj (there.symm.trans atSecond)
                refine inductionHypothesis middle before.1 first atFirst
                  (before.2.trans same) ?_
                rcases Relation.reflTransGen_iff_eq_or_transGen.mp follows with rfl | earlier
                · exact Or.inl rfl
                · exact Or.inr earlier
              · have none := quiet j second behind atSecond
                  (by rw [← Option.some.inj (there.symm.trans atSecond)]; exact same)
                rw [none] at waits
                cases waits

end Device

end KairosEngine.Library
