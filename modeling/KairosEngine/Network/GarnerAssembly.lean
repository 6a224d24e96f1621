import KairosEngine.Library.TaskPool
import KairosEngine.Network.GarnerLoop

/-!
# Shard assembly

What the tasks of `run_garner_loop` make of the blocks: the machine of the stages, the pending
entries and the results, without connections and peers.
-/

namespace KairosEngine.Network

open KairosEngine.Library

structure Assembly (Addr : Type) where
  tasks : List (Task Addr)
  pending : UInt64 → Option PendingBlock
  delivered : List ResidueBlock
  sent : List GarnerResult

def Coordinator.assembly {Addr : Type} (state : Coordinator Addr) : Assembly Addr where
  tasks := state.tasks
  pending := state.pending
  delivered := state.delivered
  sent := state.sent

def ResidueBlock.IsHalf (block : ResidueBlock) (seqId : UInt64) (selector : UInt8) : Prop :=
  block.header.seqId = seqId ∧ block.header.primeSelector = selector

instance (block : ResidueBlock) (seqId : UInt64) (selector : UInt8) :
    Decidable (block.IsHalf seqId selector) :=
  inferInstanceAs (Decidable (_ ∧ _))

def PendingBlock.half (entry : PendingBlock) (selector : UInt8) : Option (List UInt32) :=
  if selector = 0 then entry.q1 else entry.q2

/-- The block that a task has received and not yet inserted. -/
def Stage.waiting : Stage → Option ResidueBlock
  | .refining block | .inserting block => some block
  | _ => none

def Assembly.setStage {Addr : Type} (assembly : Assembly Addr) (task : Nat) (stage : Stage) :
    Assembly Addr :=
  { assembly with tasks := assembly.tasks.modify task fun entry => { entry with stage } }

section Machine

variable {Addr : Type}
variable (nttInit : UInt32 → Option (List UInt32 → List UInt32 → List Int64)) (nttN : UInt32)

/-- One step of the tasks, with the block that it inserts. -/
inductive AssemblyStep : Option ResidueBlock → Assembly Addr → Assembly Addr → Prop
  | kept {assembly} : AssemblyStep none assembly assembly
  | spawned {assembly} (addr : Addr) :
      AssemblyStep none assembly { assembly with tasks := assembly.tasks ++ [⟨addr, .receiving⟩] }
  | failed {assembly} (index : Nat) (task : Task Addr)
      (found : assembly.tasks[index]? = some task) (stage : task.stage = .receiving) :
      AssemblyStep none assembly (assembly.setStage index .finished)
  | received {assembly} (index : Nat) (task : Task Addr) (block : ResidueBlock)
      (found : assembly.tasks[index]? = some task) (stage : task.stage = .receiving) :
      AssemblyStep none assembly { assembly.setStage index (.refining block) with
        delivered := assembly.delivered ++ [block] }
  | refined {assembly} (index : Nat) (task : Task Addr) (block : ResidueBlock)
      (found : assembly.tasks[index]? = some task) (stage : task.stage = .refining block) :
      AssemblyStep none assembly (assembly.setStage index (.inserting block))
  | inserted {assembly} (index : Nat) (task : Task Addr) (block : ResidueBlock)
      (found : assembly.tasks[index]? = some task) (stage : task.stage = .inserting block) :
      AssemblyStep (some block) assembly
        { assembly.setStage index (afterInsert assembly.pending block) with
          pending := Function.update assembly.pending block.header.seqId
            (some (insertedEntry assembly.pending block)) }
  | removed {assembly} (index : Nat) (task : Task Addr) (seqId : UInt64)
      (found : assembly.tasks[index]? = some task) (stage : task.stage = .removing seqId) :
      AssemblyStep none assembly
        { assembly.setStage index (afterRemove nttInit nttN seqId (assembly.pending seqId)) with
          pending := Function.update assembly.pending seqId none }
  | answered {assembly} (index : Nat) (task : Task Addr) (result : GarnerResult)
      (found : assembly.tasks[index]? = some task) (stage : task.stage = .sending result) :
      AssemblyStep none assembly
        { assembly.setStage index .finished with sent := assembly.sent ++ [result] }

/-- The block that an event inserts into its entry. -/
def Event.inserted (event : Event Addr) (state : Coordinator Addr) : Option ResidueBlock :=
  match event with
  | .resume index =>
      match state.tasks[index]? with
      | some ⟨_, .inserting block⟩ => some block
      | _ => none
  | _ => none

theorem Event.inserted_resume {index : Nat} {task : Task Addr} {state : Coordinator Addr}
    (found : state.tasks[index]? = some task) :
    (Event.resume index).inserted state =
      match task.stage with
      | .inserting block => some block
      | _ => none := by
  rcases task with ⟨remoteAddr, stage⟩
  cases stage <;> simp [Event.inserted, found]

variable [DecidableEq Addr]

theorem resumeTask_assembly {index : Nat} {task : Task Addr} {state : Coordinator Addr}
    (found : state.tasks[index]? = some task) :
    AssemblyStep nttInit nttN ((Event.resume index).inserted state) state.assembly
      (resumeTask nttInit nttN index task.remoteAddr task.stage state).assembly := by
  rw [Event.inserted_resume found]
  cases stage : task.stage with
  | receiving => exact .kept
  | refining block => exact .refined index task block found stage
  | inserting block => exact .inserted index task block found stage
  | removing seqId => exact .removed index task seqId found stage
  | sending result => exact .answered index task result found stage
  | finished => exact .kept

omit [DecidableEq Addr] in
theorem receiveBlock_assembly {index : Nat} {task : Task Addr} {state : Coordinator Addr}
    (stream : Except String Bytes) (found : state.tasks[index]? = some task)
    (stage : task.stage = .receiving) :
    AssemblyStep nttInit nttN none state.assembly (receiveBlock index stream state).assembly := by
  unfold receiveBlock
  cases recvBlock stream with
  | ok block => exact .received index task block found stage
  | error _ => exact .failed index task found stage

theorem garnerStep_assembly (event : Event Addr) (state : Coordinator Addr) :
    AssemblyStep nttInit nttN (event.inserted state) state.assembly
      (garnerStep nttInit nttN event state).assembly := by
  cases event with
  | accept addr => exact .kept
  | close index => exact .kept
  | watch index =>
      simp only [garnerStep]
      cases state.conns[index]? with
      | none => exact .kept
      | some conn =>
          by_cases ready : conn.isOpen = false ∧ conn.watching
          · simp only [if_pos ready]
            exact .kept
          · simp only [if_neg ready]
            exact .kept
  | leave index =>
      simp only [garnerStep]
      cases state.conns[index]? with
      | none => exact .kept
      | some conn =>
          by_cases ready : conn.isOpen = false ∧ conn.accepting
          · simp only [if_pos ready]
            exact .kept
          · simp only [if_neg ready]
            exact .kept
  | acceptUni index =>
      simp only [garnerStep]
      cases state.conns[index]? with
      | none => exact .kept
      | some conn =>
          by_cases accepting : conn.accepting = true
          · simp only [if_pos accepting]
            exact .spawned conn.remoteAddr
          · simp only [if_neg accepting]
            exact .kept
  | receive index stream =>
      cases found : state.tasks[index]? with
      | none =>
          simp only [garnerStep, found]
          exact .kept
      | some task =>
          rcases task with ⟨remoteAddr, stage⟩
          cases stage with
          | receiving =>
              simp only [garnerStep, found]
              exact receiveBlock_assembly nttInit nttN stream found rfl
          | _ =>
              simp only [garnerStep, found]
              exact .kept
  | resume index =>
      cases found : state.tasks[index]? with
      | none =>
          simp only [garnerStep, Event.inserted, found]
          exact .kept
      | some task =>
          simp only [garnerStep, found]
          exact resumeTask_assembly nttInit nttN found

end Machine

/-! ## Where entries and results come from -/

section Sources

variable {Addr : Type}
variable (nttInit : UInt32 → Option (List UInt32 → List UInt32 → List Int64)) (nttN : UInt32)
variable (agree : ShardBlockHeader → UInt32 → UInt32 → Prop)

/-- The residues are those of a delivered block of this half. -/
def Assembly.HasHalf (assembly : Assembly Addr) (seqId : UInt64) (tokenPos layerId : UInt32)
    (selector : UInt8) (residues : List UInt32) : Prop :=
  ∃ block ∈ assembly.delivered, block.IsHalf seqId selector ∧
    agree block.header tokenPos layerId ∧ block.residues = residues

/-- The result was computed from one delivered block of either half. -/
def Assembly.Recombined (assembly : Assembly Addr) (result : GarnerResult) : Prop :=
  ∃ crtRecombine q1 q2, nttInit nttN = some crtRecombine ∧
    assembly.HasHalf agree result.seqId result.tokenPos result.layerId 0 q1 ∧
    assembly.HasHalf agree result.seqId result.tokenPos result.layerId 1 q2 ∧
    result.coeffs = crtRecombine q1 q2

def PendingBlock.From (assembly : Assembly Addr) (seqId : UInt64) (entry : PendingBlock) : Prop :=
  ∀ selector residues, selector = 0 ∨ selector = 1 → entry.half selector = some residues →
    assembly.HasHalf agree seqId entry.tokenPos entry.layerId selector residues

structure Sourced (assembly : Assembly Addr) : Prop where
  waiting : ∀ task ∈ assembly.tasks, ∀ block ∈ task.stage.waiting, block ∈ assembly.delivered
  entries : ∀ seqId, ∀ entry ∈ assembly.pending seqId, entry.From agree assembly seqId
  occupied : ∀ seqId, ∀ entry ∈ assembly.pending seqId,
    (entry.half 0).isSome = true ∨ (entry.half 1).isSome = true
  sending : ∀ task ∈ assembly.tasks, ∀ result, task.stage = .sending result →
    assembly.Recombined nttInit nttN agree result
  sent : ∀ result ∈ assembly.sent, assembly.Recombined nttInit nttN agree result

/-- A block of a known half that agrees with the entry it finds. -/
def BlockFits (assembly : Assembly Addr) (block : ResidueBlock) : Prop :=
  (block.header.primeSelector = 0 ∨ block.header.primeSelector = 1) ∧
    ∀ entry ∈ assembly.pending block.header.seqId,
      agree block.header entry.tokenPos entry.layerId

variable {nttInit nttN agree}

theorem Assembly.HasHalf.mono {before after : Assembly Addr}
    (more : before.delivered ⊆ after.delivered) {seqId : UInt64} {tokenPos layerId : UInt32}
    {selector : UInt8} {residues : List UInt32}
    (has : before.HasHalf agree seqId tokenPos layerId selector residues) :
    after.HasHalf agree seqId tokenPos layerId selector residues := by
  obtain ⟨block, member, rest⟩ := has
  exact ⟨block, more member, rest⟩

theorem Assembly.Recombined.mono {before after : Assembly Addr}
    (more : before.delivered ⊆ after.delivered) {result : GarnerResult}
    (made : before.Recombined nttInit nttN agree result) :
    after.Recombined nttInit nttN agree result := by
  obtain ⟨crtRecombine, q1, q2, context, first, second, coeffs⟩ := made
  exact ⟨crtRecombine, q1, q2, context, first.mono more, second.mono more, coeffs⟩

theorem PendingBlock.From.mono {before after : Assembly Addr}
    (more : before.delivered ⊆ after.delivered) {seqId : UInt64} {entry : PendingBlock}
    (made : entry.From agree before seqId) : entry.From agree after seqId :=
  fun selector residues known stored => (made selector residues known stored).mono more

theorem garnerResult_eq_some {seqId : UInt64} {entry : PendingBlock} {result : GarnerResult}
    (made : garnerResult nttInit nttN seqId entry = some result) :
    ∃ crtRecombine q1 q2, nttInit nttN = some crtRecombine ∧ entry.q1 = some q1 ∧
      entry.q2 = some q2 ∧ q1.length = nttN.toNat ∧ q2.length = nttN.toNat ∧
      result = ⟨seqId, entry.tokenPos, entry.layerId, crtRecombine q1 q2⟩ := by
  unfold garnerResult at made
  cases first : entry.q1 with
  | none => simp [first] at made
  | some q1 =>
      cases second : entry.q2 with
      | none => simp [first, second] at made
      | some q2 =>
          simp only [first, second] at made
          by_cases wrong : q1.length ≠ nttN.toNat ∨ q2.length ≠ nttN.toNat
          · simp [wrong] at made
          · rw [if_neg wrong, Option.map_eq_some_iff] at made
            obtain ⟨crtRecombine, context, rfl⟩ := made
            rw [not_or, not_not, not_not] at wrong
            exact ⟨crtRecombine, q1, q2, context, rfl, rfl, wrong.1, wrong.2, rfl⟩

theorem afterRemove_eq_sending {seqId : UInt64} {removed : Option PendingBlock}
    {result : GarnerResult} (sends : afterRemove nttInit nttN seqId removed = .sending result) :
    ∃ entry, removed = some entry ∧ garnerResult nttInit nttN seqId entry = some result := by
  cases made : removed.bind (garnerResult nttInit nttN seqId) with
  | none => simp [afterRemove, made] at sends
  | some other =>
      obtain ⟨entry, present, made'⟩ := Option.bind_eq_some_iff.mp made
      obtain rfl : other = result := by simpa [afterRemove, made] using sends
      exact ⟨entry, present, made'⟩

@[simp]
theorem PendingBlock.half_opened (header : ShardBlockHeader) (selector : UInt8) :
    (PendingBlock.opened header).half selector = none := by
  simp [PendingBlock.half, PendingBlock.opened]

@[simp]
theorem PendingBlock.store_tokenPos (entry : PendingBlock) (block : ResidueBlock) :
    (entry.store block).tokenPos = entry.tokenPos := by
  unfold PendingBlock.store
  split <;> rfl

@[simp]
theorem PendingBlock.store_layerId (entry : PendingBlock) (block : ResidueBlock) :
    (entry.store block).layerId = entry.layerId := by
  unfold PendingBlock.store
  split <;> rfl

/-- A block of a known half goes where it belongs and leaves the other half alone. -/
theorem PendingBlock.half_store (entry : PendingBlock) {block : ResidueBlock} {selector : UInt8}
    (known : block.header.primeSelector = 0 ∨ block.header.primeSelector = 1)
    (asked : selector = 0 ∨ selector = 1) :
    (entry.store block).half selector =
      if block.header.primeSelector = selector then some block.residues
      else entry.half selector := by
  rcases known with known | known <;> rcases asked with rfl | rfl <;>
    simp [PendingBlock.store, PendingBlock.half, known]

theorem afterInsert_waiting (pending : UInt64 → Option PendingBlock) (block : ResidueBlock) :
    (afterInsert pending block).waiting = none := by
  unfold afterInsert
  split <;> rfl

theorem afterRemove_waiting (seqId : UInt64) (removed : Option PendingBlock) :
    (afterRemove nttInit nttN seqId removed).waiting = none := by
  unfold afterRemove
  split <;> rfl

theorem Sourced.setStage {assembly : Assembly Addr} (holds : Sourced nttInit nttN agree assembly)
    (index : Nat) (stage : Stage) (waiting : ∀ block ∈ stage.waiting, block ∈ assembly.delivered)
    (sending : ∀ result, stage = .sending result →
      assembly.Recombined nttInit nttN agree result) :
    Sourced nttInit nttN agree (assembly.setStage index stage) where
  waiting := forall_mem_modify (fun _ _ _ => waiting) (fun _ present => present) holds.waiting
  entries := holds.entries
  occupied := holds.occupied
  sending := forall_mem_modify (fun _ _ _ => sending) (fun _ present => present) holds.sending
  sent := holds.sent

theorem Sourced.deliver {assembly : Assembly Addr} (holds : Sourced nttInit nttN agree assembly)
    (block : ResidueBlock) :
    Sourced nttInit nttN agree
      { assembly with delivered := assembly.delivered ++ [block] } where
  waiting task member waited present :=
    List.mem_append_left _ (holds.waiting task member waited present)
  entries seqId entry present :=
    PendingBlock.From.mono (List.subset_append_left _ _) (holds.entries seqId entry present)
  occupied := holds.occupied
  sending task member result stage :=
    (holds.sending task member result stage).mono (List.subset_append_left _ _)
  sent result member := (holds.sent result member).mono (List.subset_append_left _ _)

theorem PendingBlock.store_occupied (entry : PendingBlock) (block : ResidueBlock) :
    ((entry.store block).half 0).isSome = true ∨ ((entry.store block).half 1).isSome = true := by
  by_cases first : block.header.primeSelector = 0
  · exact Or.inl (by simp [store, half, first])
  · exact Or.inr (by simp [store, half, first])

theorem insertedEntry_from {assembly : Assembly Addr} {block : ResidueBlock}
    (refl : ∀ header : ShardBlockHeader, agree header header.tokenPos header.layerId)
    (holds : Sourced nttInit nttN agree assembly) (delivered : block ∈ assembly.delivered)
    (fits : BlockFits agree assembly block) :
    (insertedEntry assembly.pending block).From agree assembly block.header.seqId := by
  obtain ⟨known, agrees⟩ := fits
  intro selector residues asked stored
  rw [insertedEntry, PendingBlock.half_store _ known asked] at stored
  rw [insertedEntry, PendingBlock.store_tokenPos, PendingBlock.store_layerId]
  cases found : assembly.pending block.header.seqId with
  | none =>
      rw [found, Option.getD_none, PendingBlock.half_opened] at stored
      by_cases same : block.header.primeSelector = selector
      · rw [if_pos same, Option.some.injEq] at stored
        exact ⟨block, delivered, ⟨rfl, same⟩, refl block.header, stored⟩
      · rw [if_neg same] at stored
        cases stored
  | some entry =>
      rw [found, Option.getD_some] at stored
      by_cases same : block.header.primeSelector = selector
      · rw [if_pos same, Option.some.injEq] at stored
        exact ⟨block, delivered, ⟨rfl, same⟩, agrees entry found, stored⟩
      · rw [if_neg same] at stored
        exact holds.entries block.header.seqId entry found selector residues asked stored

theorem garnerResult_recombined {assembly : Assembly Addr} {seqId : UInt64} {entry : PendingBlock}
    {result : GarnerResult} (origin : entry.From agree assembly seqId)
    (made : garnerResult nttInit nttN seqId entry = some result) :
    assembly.Recombined nttInit nttN agree result := by
  obtain ⟨crtRecombine, q1, q2, context, first, second, -, -, rfl⟩ := garnerResult_eq_some made
  exact ⟨crtRecombine, q1, q2, context, origin 0 q1 (Or.inl rfl) first,
    origin 1 q2 (Or.inr rfl) second, rfl⟩

theorem AssemblyStep.inserted_delivered {inserted : Option ResidueBlock}
    {assembly next : Assembly Addr} (step : AssemblyStep nttInit nttN inserted assembly next)
    (holds : Sourced nttInit nttN agree assembly) {block : ResidueBlock}
    (inserts : block ∈ inserted) : block ∈ assembly.delivered := by
  cases step with
  | inserted index task block found stage =>
      cases inserts
      exact holds.waiting task (List.mem_of_getElem? found) _ (by simp [stage, Stage.waiting])
  | _ => cases inserts

theorem Sourced.step {inserted : Option ResidueBlock} {assembly next : Assembly Addr}
    (refl : ∀ header : ShardBlockHeader, agree header header.tokenPos header.layerId)
    (step : AssemblyStep nttInit nttN inserted assembly next)
    (fits : ∀ block ∈ inserted, BlockFits agree assembly block)
    (holds : Sourced nttInit nttN agree assembly) : Sourced nttInit nttN agree next := by
  have delivered : ∀ block ∈ inserted, block ∈ assembly.delivered :=
    fun _ inserts => step.inserted_delivered holds inserts
  cases step with
  | kept => exact holds
  | spawned addr =>
      constructor
      · intro task member
        rcases List.mem_append.mp member with earlier | new
        · exact holds.waiting task earlier
        · rw [List.mem_singleton.mp new]
          exact fun _ absent => absurd absent (by simp [Stage.waiting])
      · exact holds.entries
      · exact holds.occupied
      · intro task member
        rcases List.mem_append.mp member with earlier | new
        · exact holds.sending task earlier
        · rw [List.mem_singleton.mp new]
          exact fun _ stage => nomatch stage
      · exact holds.sent
  | failed index task found stage =>
      exact holds.setStage index .finished (by simp [Stage.waiting]) (fun _ stage => nomatch stage)
  | received index task block found stage =>
      exact (holds.deliver block).setStage index (.refining block)
        (by simp [Stage.waiting]) (fun _ stage => nomatch stage)
  | refined index task block found stage =>
      have delivered : block ∈ assembly.delivered :=
        holds.waiting task (List.mem_of_getElem? found) block (by simp [stage, Stage.waiting])
      exact holds.setStage index (.inserting block)
        (by simpa [Stage.waiting] using delivered) (fun _ stage => nomatch stage)
  | inserted index task block found stage =>
      have moved : Sourced nttInit nttN agree
          (assembly.setStage index (afterInsert assembly.pending block)) := by
        refine holds.setStage index _ (by simp [afterInsert_waiting]) fun result stage => ?_
        unfold afterInsert at stage
        split at stage <;> cases stage
      have entries : ∀ seqId, ∀ entry ∈ Function.update assembly.pending block.header.seqId
          (some (insertedEntry assembly.pending block)) seqId,
          entry.From agree assembly seqId ∧
            ((entry.half 0).isSome = true ∨ (entry.half 1).isSome = true) := by
        intro seqId entry present
        by_cases same : seqId = block.header.seqId
        · subst same
          rw [Option.mem_def, Function.update_self, Option.some.injEq] at present
          rw [← present]
          exact ⟨insertedEntry_from refl holds (delivered block rfl) (fits block rfl),
            PendingBlock.store_occupied _ block⟩
        · rw [Function.update_of_ne same] at present
          exact ⟨holds.entries seqId entry present, holds.occupied seqId entry present⟩
      exact ⟨moved.waiting, fun seqId entry present => (entries seqId entry present).1,
        fun seqId entry present => (entries seqId entry present).2, moved.sending, moved.sent⟩
  | removed index task seqId found stage =>
      have moved : Sourced nttInit nttN agree (assembly.setStage index
          (afterRemove nttInit nttN seqId (assembly.pending seqId))) := by
        refine holds.setStage index _ (by simp [afterRemove_waiting]) fun result stage => ?_
        obtain ⟨entry, present, made⟩ := afterRemove_eq_sending stage
        exact garnerResult_recombined (holds.entries seqId entry present) made
      have earlier : ∀ other, ∀ entry ∈ Function.update assembly.pending seqId none other,
          entry ∈ assembly.pending other := by
        intro other entry present
        by_cases same : other = seqId
        · rw [same, Function.update_self] at present
          cases present
        · rwa [Function.update_of_ne same] at present
      exact ⟨moved.waiting, fun other entry present => holds.entries other entry (earlier other entry present),
        fun other entry present => holds.occupied other entry (earlier other entry present),
        moved.sending, moved.sent⟩
  | answered index task result found stage =>
      have moved := holds.setStage index .finished (by simp [Stage.waiting])
        (fun _ stage => nomatch stage)
      refine ⟨moved.waiting, moved.entries, moved.occupied, moved.sending, fun other member => ?_⟩
      rcases List.mem_append.mp member with earlier | new
      · exact holds.sent other earlier
      · rw [List.mem_singleton.mp new]
        exact holds.sending task (List.mem_of_getElem? found) result stage

theorem Sourced.start : Sourced nttInit nttN agree (Coordinator.start : Coordinator Addr).assembly where
  waiting _ member := nomatch member
  entries _ _ present := nomatch present
  occupied _ _ present := nomatch present
  sending _ member := nomatch member
  sent _ member := nomatch member

theorem AssemblyStep.delivered_prefix {inserted : Option ResidueBlock}
    {assembly next : Assembly Addr} (step : AssemblyStep nttInit nttN inserted assembly next) :
    assembly.delivered <+: next.delivered := by
  cases step with
  | received => exact List.prefix_append _ _
  | _ => exact List.prefix_rfl

end Sources

end KairosEngine.Network
