import KairosEngine.Network.GarnerAssembly

/-!
# Runs of the coordinator

How often a `seq_id` is answered.  Every delivered half is with its task, in its entry, or in
a result; with one block of either half these counts decide how a run ends.
-/

namespace KairosEngine.Network

open KairosEngine.Library

def Stage.holds (seqId : UInt64) (selector : UInt8) (stage : Stage) : Bool :=
  stage.waiting.any fun block => decide (block.IsHalf seqId selector)

def Stage.removes (seqId : UInt64) (stage : Stage) : Bool := decide (stage = .removing seqId)

def Stage.sends (seqId : UInt64) : Stage → Bool
  | .sending result => decide (result.seqId = seqId)
  | _ => false

section Counts

variable {Addr : Type}

/-- How many of the delivered blocks are this half. -/
def halves (delivered : List ResidueBlock) (seqId : UInt64) (selector : UInt8) : Nat :=
  delivered.countP fun block => decide (block.IsHalf seqId selector)

def Assembly.counted (assembly : Assembly Addr) (stages : Stage → Bool) : Nat :=
  assembly.tasks.countP fun task => stages task.stage

def Assembly.stored (assembly : Assembly Addr) (seqId : UInt64) (selector : UInt8) : Nat :=
  ((assembly.pending seqId).bind fun entry => entry.half selector).isSome.toNat

/-- The results of a `seq_id` in the channel. -/
def Assembly.sentTo (assembly : Assembly Addr) (seqId : UInt64) : Nat :=
  assembly.sent.countP fun result => decide (result.seqId = seqId)

/-- The results of a `seq_id`, sent or about to be sent. -/
def Assembly.answers (assembly : Assembly Addr) (seqId : UInt64) : Nat :=
  assembly.counted (Stage.sends seqId) + assembly.sentTo seqId

structure Balanced (seqId : UInt64) (assembly : Assembly Addr) : Prop where
  conserved : ∀ selector, selector = 0 ∨ selector = 1 →
    halves assembly.delivered seqId selector =
      assembly.counted (Stage.holds seqId selector) + assembly.stored seqId selector +
        assembly.answers seqId
  removal : assembly.counted (Stage.removes seqId) =
    min (assembly.stored seqId 0) (assembly.stored seqId 1)

theorem Assembly.counted_setStage {assembly : Assembly Addr} {index : Nat} {task : Task Addr}
    (found : assembly.tasks[index]? = some task) (stage : Stage) (stages : Stage → Bool) :
    (assembly.setStage index stage).counted stages + (stages task.stage).toNat =
      assembly.counted stages + (stages stage).toNat :=
  @countP_modify (Task Addr) _ _ (fun entry => { entry with stage }) task
    (fun task => stages task.stage) found

theorem Assembly.counted_pos {assembly : Assembly Addr} {index : Nat} {task : Task Addr}
    (found : assembly.tasks[index]? = some task) {stages : Stage → Bool}
    (counts : stages task.stage = true) : 0 < assembly.counted stages :=
  List.countP_pos_iff.mpr ⟨task, List.mem_of_getElem? found, counts⟩

theorem Assembly.stored_le_one (assembly : Assembly Addr) (seqId : UInt64) (selector : UInt8) :
    assembly.stored seqId selector ≤ 1 := Bool.toNat_le _

/-- The entry that a task writes back is the one stored. -/
theorem Assembly.stored_written (assembly : Assembly Addr) (index : Nat) (stage : Stage)
    (seqId : UInt64) (entry : Option PendingBlock) (selector : UInt8) :
    Assembly.stored
      { assembly.setStage index stage with
        pending := Function.update assembly.pending seqId entry } seqId selector =
      (entry.bind fun entry => entry.half selector).isSome.toNat := by
  simp only [Assembly.stored, Function.update_self]

/-- Entries of other blocks stay as they are. -/
theorem Assembly.stored_unwritten {assembly : Assembly Addr} {index : Nat} {stage : Stage}
    {seqId written : UInt64} (apart : seqId ≠ written) {entry : Option PendingBlock}
    {selector : UInt8} :
    Assembly.stored
      { assembly.setStage index stage with
        pending := Function.update assembly.pending written entry } seqId selector =
      assembly.stored seqId selector := by
  simp only [Assembly.stored, Function.update_of_ne apart]

theorem Assembly.sentTo_send (assembly : Assembly Addr) (index : Nat) (stage : Stage)
    (result : GarnerResult) (seqId : UInt64) :
    Assembly.sentTo
      { assembly.setStage index stage with sent := assembly.sent ++ [result] } seqId =
      assembly.sentTo seqId + (decide (result.seqId = seqId)).toNat := by
  rw [Assembly.sentTo, List.countP_append, List.countP_singleton]
  cases decide (result.seqId = seqId) <;> rfl

theorem half_insertedEntry {pending : UInt64 → Option PendingBlock} {block : ResidueBlock}
    {selector : UInt8}
    (known : block.header.primeSelector = 0 ∨ block.header.primeSelector = 1)
    (asked : selector = 0 ∨ selector = 1) :
    (insertedEntry pending block).half selector =
      if block.header.primeSelector = selector then some block.residues
      else (pending block.header.seqId).bind fun entry => entry.half selector := by
  rw [insertedEntry, PendingBlock.half_store _ known asked]
  cases pending block.header.seqId with
  | none => rw [Option.getD_none, PendingBlock.half_opened, Option.bind_none]
  | some entry => rfl

theorem PendingBlock.bothArrived_eq (entry : PendingBlock) :
    entry.bothArrived = ((entry.half 0).isSome && (entry.half 1).isSome) := rfl

theorem halves_append (delivered : List ResidueBlock) (block : ResidueBlock) (seqId : UInt64)
    (selector : UInt8) :
    halves (delivered ++ [block]) seqId selector =
      halves delivered seqId selector + (decide (block.IsHalf seqId selector)).toNat := by
  rw [halves, List.countP_append, List.countP_singleton, ← halves]
  cases decide (block.IsHalf seqId selector) <;> rfl

/-- A task that moves on keeps the balance if it adds what it takes. -/
theorem Balanced.move {seqId : UInt64} {before after : Assembly Addr} {index : Nat}
    {task : Task Addr} {stage : Stage} (found : before.tasks[index]? = some task)
    (tasks : after.tasks = (before.setStage index stage).tasks)
    (conserved : ∀ selector, selector = 0 ∨ selector = 1 →
      halves after.delivered seqId selector + ((task.stage.holds seqId selector).toNat +
          before.stored seqId selector + (task.stage.sends seqId).toNat + before.sentTo seqId) =
        halves before.delivered seqId selector + ((stage.holds seqId selector).toNat +
          after.stored seqId selector + (stage.sends seqId).toNat + after.sentTo seqId))
    (removal : min (after.stored seqId 0) (after.stored seqId 1) +
        (task.stage.removes seqId).toNat =
      min (before.stored seqId 0) (before.stored seqId 1) + (stage.removes seqId).toNat)
    (balanced : Balanced seqId before) : Balanced seqId after := by
  have moved : ∀ stages : Stage → Bool, after.counted stages + (stages task.stage).toNat =
      before.counted stages + (stages stage).toNat := by
    intro stages
    rw [Assembly.counted, tasks]
    exact Assembly.counted_setStage found stage stages
  constructor
  · intro selector asked
    have waiting := moved (Stage.holds seqId selector)
    have sending := moved (Stage.sends seqId)
    have local_balance := conserved selector asked
    have earlier := balanced.conserved selector asked
    simp only [Assembly.answers] at earlier ⊢
    omega
  · have removing := moved (Stage.removes seqId)
    have earlier := balanced.removal
    omega

end Counts

section Steps

variable {Addr : Type}
variable {nttInit : UInt32 → Option (List UInt32 → List UInt32 → List Int64)} {nttN : UInt32}

theorem afterInsert_counts (pending : UInt64 → Option PendingBlock) (block : ResidueBlock)
    (seqId : UInt64) :
    (afterInsert pending block).sends seqId = false ∧
      (∀ selector, (afterInsert pending block).holds seqId selector = false) ∧
      (afterInsert pending block).removes seqId =
        ((insertedEntry pending block).bothArrived &&
          decide (block.header.seqId = seqId)) := by
  unfold afterInsert
  cases arrived : (insertedEntry pending block).bothArrived with
  | true => simp [Stage.sends, Stage.holds, Stage.waiting, Stage.removes]
  | false => simp [Stage.sends, Stage.holds, Stage.waiting, Stage.removes]

/-- The two halves of an entry that came from delivered blocks give a result. -/
theorem afterRemove_complete {agree : ShardBlockHeader → UInt32 → UInt32 → Prop}
    {crtRecombine : List UInt32 → List UInt32 → List Int64} (context : nttInit nttN = some crtRecombine)
    {assembly : Assembly Addr} (sourced : Sourced nttInit nttN agree assembly)
    (sized : ∀ block ∈ assembly.delivered, block.residues.length = nttN.toNat)
    {seqId : UInt64} (first : assembly.stored seqId 0 = 1) (second : assembly.stored seqId 1 = 1) :
    ∃ result, afterRemove nttInit nttN seqId (assembly.pending seqId) = .sending result ∧
      result.seqId = seqId := by
  have some_of : ∀ selector, assembly.stored seqId selector = 1 →
      ∃ entry, assembly.pending seqId = some entry ∧ ∃ residues, entry.half selector = some residues := by
    intro selector stored
    rw [Assembly.stored, Bool.toNat_eq_one, Option.isSome_iff_exists] at stored
    obtain ⟨residues, found⟩ := stored
    obtain ⟨entry, present, half⟩ := Option.bind_eq_some_iff.mp found
    exact ⟨entry, present, residues, half⟩
  obtain ⟨entry, present, q1, half1⟩ := some_of 0 first
  obtain ⟨other, present', q2, half2⟩ := some_of 1 second
  obtain rfl : entry = other := Option.some.inj (present.symm.trans present')
  obtain ⟨block1, member1, -, -, rfl⟩ :=
    sourced.entries seqId entry present 0 q1 (Or.inl rfl) half1
  obtain ⟨block2, member2, -, -, rfl⟩ :=
    sourced.entries seqId entry present 1 q2 (Or.inr rfl) half2
  have first' : entry.q1 = some block1.residues := half1
  have second' : entry.q2 = some block2.residues := half2
  have sizes : ¬ (block1.residues.length ≠ nttN.toNat ∨ block2.residues.length ≠ nttN.toNat) := by
    rw [not_or, not_not, not_not]
    exact ⟨sized block1 member1, sized block2 member2⟩
  have made : garnerResult nttInit nttN seqId entry = some ⟨seqId, entry.tokenPos, entry.layerId,
      crtRecombine block1.residues block2.residues⟩ := by
    simp only [garnerResult, first', second', if_neg sizes, context, Option.map_some]
  refine ⟨⟨seqId, entry.tokenPos, entry.layerId,
    crtRecombine block1.residues block2.residues⟩, ?_, rfl⟩
  rw [afterRemove, present, Option.bind_some, made]

theorem Balanced.inserted {assembly : Assembly Addr} {index : Nat} {task : Task Addr}
    {block : ResidueBlock} (found : assembly.tasks[index]? = some task)
    (stage : task.stage = .inserting block)
    (known : block.header.primeSelector = 0 ∨ block.header.primeSelector = 1) {seqId : UInt64}
    (once : ∀ selector, selector = 0 ∨ selector = 1 →
      halves assembly.delivered seqId selector ≤ 1)
    (balanced : Balanced seqId assembly) :
    Balanced seqId
      { assembly.setStage index (afterInsert assembly.pending block) with
        pending := Function.update assembly.pending block.header.seqId
          (some (insertedEntry assembly.pending block)) } := by
  obtain ⟨sends, holds, removes⟩ := afterInsert_counts assembly.pending block seqId
  have held : ∀ selector, task.stage.holds seqId selector =
      decide (block.IsHalf seqId selector) := by
    intro selector
    simp [stage, Stage.holds, Stage.waiting]
  by_cases same : block.header.seqId = seqId
  · subst same
    -- The half was not stored before: it would have been delivered twice.
    have free : assembly.stored block.header.seqId block.header.primeSelector = 0 := by
      have waits := @Assembly.counted_pos Addr assembly index task found
        (Stage.holds block.header.seqId block.header.primeSelector)
        (by rw [held]; simp [ResidueBlock.IsHalf])
      have limit := once _ known
      have conserved := balanced.conserved _ known
      omega
    have stored : ∀ selector, selector = 0 ∨ selector = 1 →
        ((insertedEntry assembly.pending block).half selector).isSome.toNat =
          assembly.stored block.header.seqId selector +
            (decide (block.IsHalf block.header.seqId selector)).toNat := by
      intro selector asked
      rw [half_insertedEntry known asked]
      by_cases here : block.header.primeSelector = selector
      · subst here
        simp [free, ResidueBlock.IsHalf]
      · simp [here, ResidueBlock.IsHalf, Assembly.stored]
    refine balanced.move found rfl (fun selector asked => ?_) ?_
    · rw [assembly.stored_written, Option.bind_some, stored selector asked, held, holds, sends,
        stage]
      simp only [Stage.sends, Bool.toNat_false, Assembly.sentTo, Assembly.setStage]
      omega
    · have empty : min (assembly.stored block.header.seqId 0)
          (assembly.stored block.header.seqId 1) = 0 := by
        rcases known with known | known <;> rw [known] at free <;> simp [free]
      rw [assembly.stored_written, assembly.stored_written, Option.bind_some, Option.bind_some,
        removes, empty, stage, PendingBlock.bothArrived_eq]
      cases ((insertedEntry assembly.pending block).half 0).isSome <;>
        cases ((insertedEntry assembly.pending block).half 1).isSome <;>
        simp [Stage.removes]
  · have apart : ∀ selector, ¬ block.IsHalf seqId selector := fun _ half => same half.1
    have other : seqId ≠ block.header.seqId := Ne.symm same
    refine balanced.move found rfl (fun selector asked => ?_) ?_
    · rw [Assembly.stored_unwritten other, held, holds, sends, stage]
      simp [Stage.sends, apart, Assembly.sentTo, Assembly.setStage]
    · rw [Assembly.stored_unwritten other, Assembly.stored_unwritten other, removes, stage]
      simp [Stage.removes, same]

theorem Balanced.removed {agree : ShardBlockHeader → UInt32 → UInt32 → Prop}
    {crtRecombine : List UInt32 → List UInt32 → List Int64}
    (context : nttInit nttN = some crtRecombine) {assembly : Assembly Addr}
    (sourced : Sourced nttInit nttN agree assembly)
    (sized : ∀ block ∈ assembly.delivered, block.residues.length = nttN.toNat)
    {index : Nat} {task : Task Addr} {removed : UInt64}
    (found : assembly.tasks[index]? = some task) (stage : task.stage = .removing removed)
    {seqId : UInt64} (balanced : Balanced seqId assembly) :
    Balanced seqId
      { assembly.setStage index (afterRemove nttInit nttN removed (assembly.pending removed)) with
        pending := Function.update assembly.pending removed none } := by
  by_cases same : removed = seqId
  · subst same
    have removers := @Assembly.counted_pos Addr assembly index task found
      (Stage.removes removed) (by simp [stage, Stage.removes])
    have removal := balanced.removal
    have limit0 := assembly.stored_le_one removed 0
    have limit1 := assembly.stored_le_one removed 1
    have first : assembly.stored removed 0 = 1 := by omega
    have second : assembly.stored removed 1 = 1 := by omega
    obtain ⟨result, next, answered⟩ := afterRemove_complete context sourced sized first second
    refine balanced.move found rfl (fun selector asked => ?_) ?_
    · have full : assembly.stored removed selector = 1 := by
        rcases asked with rfl | rfl
        · exact first
        · exact second
      rw [assembly.stored_written, full, stage, next]
      simp [Stage.holds, Stage.waiting, Stage.sends, answered, Assembly.sentTo, Assembly.setStage]
    · rw [assembly.stored_written, assembly.stored_written, first, second, stage, next]
      simp [Stage.removes]
  · have other : seqId ≠ removed := Ne.symm same
    have silent : (afterRemove nttInit nttN removed (assembly.pending removed)).sends seqId = false ∧
        (afterRemove nttInit nttN removed (assembly.pending removed)).removes seqId = false := by
      cases next : afterRemove nttInit nttN removed (assembly.pending removed) with
      | sending result =>
          obtain ⟨entry, -, made⟩ := afterRemove_eq_sending next
          obtain ⟨crtRecombine, q1, q2, -, -, -, -, -, rfl⟩ := garnerResult_eq_some made
          simp [Stage.sends, Stage.removes, same]
      | removing seqId =>
          unfold afterRemove at next
          split at next <;> cases next
      | _ => simp [Stage.sends, Stage.removes]
    refine balanced.move found rfl (fun selector asked => ?_) ?_
    · rw [Assembly.stored_unwritten other, silent.1, Stage.holds, Stage.holds, afterRemove_waiting, stage]
      simp [Stage.waiting, Stage.sends, Assembly.sentTo, Assembly.setStage]
    · rw [Assembly.stored_unwritten other, Assembly.stored_unwritten other, silent.2, stage]
      simp [Stage.removes, same]

/-- At most one block of either half was delivered, and all blocks carry `ntt_n` residues. -/
structure OncePerHalf (nttN : UInt32) (delivered : List ResidueBlock) : Prop where
  once : ∀ seqId selector, selector = 0 ∨ selector = 1 → halves delivered seqId selector ≤ 1
  sized : ∀ block ∈ delivered, block.residues.length = nttN.toNat

/-- The header promises two values of `prime_selector`. -/
def KnownHalves (delivered : List ResidueBlock) : Prop :=
  ∀ block ∈ delivered, block.header.primeSelector = 0 ∨ block.header.primeSelector = 1

instance (delivered : List ResidueBlock) : Decidable (KnownHalves delivered) :=
  inferInstanceAs (Decidable (∀ block ∈ delivered, _ ∨ _))

theorem Balanced.step {agree : ShardBlockHeader → UInt32 → UInt32 → Prop}
    {crtRecombine : List UInt32 → List UInt32 → List Int64}
    (context : nttInit nttN = some crtRecombine) {inserted : Option ResidueBlock}
    {assembly next : Assembly Addr} (step : AssemblyStep nttInit nttN inserted assembly next)
    (sourced : Sourced nttInit nttN agree assembly)
    (premise : OncePerHalf nttN assembly.delivered) (known : KnownHalves assembly.delivered)
    {seqId : UInt64} (balanced : Balanced seqId assembly) : Balanced seqId next := by
  have delivered : ∀ block ∈ inserted, block ∈ assembly.delivered :=
    fun _ inserts => step.inserted_delivered sourced inserts
  cases step with
  | kept => exact balanced
  | spawned addr =>
      have counted : ∀ stages : Stage → Bool, stages .receiving = false →
          Assembly.counted { assembly with tasks := assembly.tasks ++ [⟨addr, .receiving⟩] } stages =
            assembly.counted stages := by
        intro stages absent
        simp [Assembly.counted, List.countP_append, absent]
      constructor
      · intro selector asked
        rw [Assembly.answers, counted _ rfl, counted _ rfl]
        exact balanced.conserved selector asked
      · rw [counted _ rfl]
        exact balanced.removal
  | failed index task found stage =>
      exact balanced.move found rfl (fun _ _ => by rw [stage]; rfl) (by rw [stage]; rfl)
  | received index task block found stage =>
      refine balanced.move found rfl (fun selector _ => ?_) (by rw [stage]; rfl)
      rw [stage]
      simp only [halves_append, Stage.holds, Stage.waiting, Option.any_none, Option.any_some,
        Stage.sends, Bool.toNat_false, Assembly.stored, Assembly.sentTo, Assembly.setStage]
      omega
  | refined index task block found stage =>
      exact balanced.move found rfl (fun _ _ => by rw [stage]; rfl) (by rw [stage]; rfl)
  | inserted index task block found stage =>
      exact balanced.inserted found stage (known block (delivered block rfl)) (premise.once seqId)
  | removed index task seqId found stage =>
      exact balanced.removed context sourced premise.sized found stage
  | answered index task result found stage =>
      refine balanced.move found rfl (fun selector _ => ?_) (by rw [stage]; rfl)
      rw [stage]
      rw [assembly.sentTo_send]
      simp only [Stage.holds, Stage.waiting, Option.any_none, Stage.sends, Bool.toNat_false,
        Assembly.stored, Assembly.setStage]
      omega

theorem OncePerHalf.of_prefix {before after : List ResidueBlock} (more : before <+: after)
    (premise : OncePerHalf nttN after) : OncePerHalf nttN before where
  once seqId selector asked := more.sublist.countP_le.trans (premise.once seqId selector asked)
  sized block member := premise.sized block (more.subset member)

theorem KnownHalves.of_prefix {before after : List ResidueBlock} (more : before <+: after)
    (known : KnownHalves after) : KnownHalves before :=
  fun block member => known block (more.subset member)

theorem oncePerHalf_of_nodup {delivered : List ResidueBlock}
    (distinct : (delivered.map fun block =>
      (block.header.seqId, block.header.primeSelector)).Nodup)
    (sized : ∀ block ∈ delivered, block.residues.length = nttN.toNat) :
    OncePerHalf nttN delivered where
  once seqId selector _ := by
    have counts : (delivered.map fun block =>
        (block.header.seqId, block.header.primeSelector)).count (seqId, selector) =
        halves delivered seqId selector := by
      rw [List.count_eq_countP, List.countP_map]
      refine List.countP_congr fun block _ => ?_
      rw [Function.comp_apply, beq_iff_eq, Prod.mk.injEq, decide_eq_true_eq]
      exact Iff.rfl
    exact counts.symm.le.trans (List.nodup_iff_count_le_one.mp distinct _)
  sized := sized

/-- With one block of either half at most, these are the same block. -/
theorem OncePerHalf.unique {delivered : List ResidueBlock} (premise : OncePerHalf nttN delivered)
    {seqId : UInt64} {selector : UInt8} (asked : selector = 0 ∨ selector = 1)
    {first second : ResidueBlock} (member : first ∈ delivered) (half : first.IsHalf seqId selector)
    (member' : second ∈ delivered) (half' : second.IsHalf seqId selector) : first = second := by
  have short := premise.once seqId selector asked
  rw [halves, List.countP_eq_length_filter] at short
  have first_in : first ∈ delivered.filter fun block => decide (block.IsHalf seqId selector) :=
    List.mem_filter.mpr ⟨member, decide_eq_true half⟩
  have second_in : second ∈ delivered.filter fun block => decide (block.IsHalf seqId selector) :=
    List.mem_filter.mpr ⟨member', decide_eq_true half'⟩
  cases found : delivered.filter fun block => decide (block.IsHalf seqId selector) with
  | nil =>
      rw [found] at first_in
      cases first_in
  | cons head rest =>
      rw [found, List.length_cons] at short
      obtain rfl : rest = [] := List.length_eq_zero_iff.mp (by omega)
      rw [found] at first_in second_in
      exact (List.mem_singleton.mp first_in).trans (List.mem_singleton.mp second_in).symm

/-- At most one answer to a `seq_id`, and none while its entry is complete. -/
structure AnsweredOnce (assembly : Assembly Addr) : Prop where
  answers : ∀ seqId, assembly.answers seqId ≤ 1
  complete : ∀ seqId, assembly.stored seqId 0 = 1 → assembly.stored seqId 1 = 1 →
    assembly.answers seqId = 0

theorem AnsweredOnce.move {before after : Assembly Addr} {index : Nat} {task : Task Addr}
    {stage : Stage} (found : before.tasks[index]? = some task)
    (tasks : after.tasks = (before.setStage index stage).tasks)
    (silent : ∀ seqId, (stage.sends seqId).toNat + after.sentTo seqId =
      (task.stage.sends seqId).toNat + before.sentTo seqId)
    (complete : ∀ seqId, after.stored seqId 0 = 1 → after.stored seqId 1 = 1 →
      before.answers seqId = 0) (once : AnsweredOnce before) : AnsweredOnce after := by
  have same : ∀ seqId, after.answers seqId = before.answers seqId := by
    intro seqId
    have moved : after.counted (Stage.sends seqId) + (task.stage.sends seqId).toNat =
        before.counted (Stage.sends seqId) + (stage.sends seqId).toNat := by
      rw [Assembly.counted, tasks]
      exact Assembly.counted_setStage found stage (Stage.sends seqId)
    have kept := silent seqId
    simp only [Assembly.answers]
    omega
  constructor
  · intro seqId
    rw [same]
    exact once.answers seqId
  · intro seqId first second
    rw [same]
    exact complete seqId first second

theorem AnsweredOnce.removed {assembly : Assembly Addr} {index : Nat} {task : Task Addr}
    {removed : UInt64} (found : assembly.tasks[index]? = some task)
    (stage : task.stage = .removing removed) (once : AnsweredOnce assembly) :
    AnsweredOnce
      { assembly.setStage index (afterRemove nttInit nttN removed (assembly.pending removed)) with
        pending := Function.update assembly.pending removed none } := by
  generalize next : afterRemove nttInit nttN removed (assembly.pending removed) = behind
  have moved : ∀ seqId, Assembly.answers
      { assembly.setStage index behind with
        pending := Function.update assembly.pending removed none } seqId =
      assembly.answers seqId + (behind.sends seqId).toNat := by
    intro seqId
    have balance := Assembly.counted_setStage found behind (Stage.sends seqId)
    have silent : task.stage.sends seqId = false := by rw [stage]; rfl
    rw [silent, Bool.toNat_false, Nat.add_zero] at balance
    simp only [Assembly.answers, Assembly.sentTo, Assembly.counted, Assembly.setStage] at balance ⊢
    omega
  -- Only a complete entry is answered.
  have answered : ∀ seqId, behind.sends seqId = true →
      seqId = removed ∧ assembly.answers seqId = 0 := by
    intro seqId sends
    cases behind with
    | sending result =>
        obtain ⟨entry, present, made⟩ := afterRemove_eq_sending next
        obtain ⟨crtRecombine, q1, q2, -, first, second, -, -, rfl⟩ := garnerResult_eq_some made
        have here : removed = seqId := by simpa [Stage.sends] using sends
        subst here
        refine ⟨rfl, once.complete removed ?_ ?_⟩
        · simp [Assembly.stored, present, PendingBlock.half, first]
        · simp [Assembly.stored, present, PendingBlock.half, second]
    | _ => cases sends
  constructor
  · intro seqId
    rw [moved]
    cases sends : behind.sends seqId with
    | false => exact once.answers seqId
    | true =>
        rw [(answered seqId sends).2]
        decide
  · intro seqId first second
    have other : seqId ≠ removed := by
      rintro rfl
      rw [assembly.stored_written] at first
      cases first
    rw [Assembly.stored_unwritten other] at first second
    cases sends : behind.sends seqId with
    | false =>
        rw [moved, sends]
        exact once.complete seqId first second
    | true => exact absurd (answered seqId sends).1 other

theorem AnsweredOnce.step {inserted : Option ResidueBlock} {assembly next : Assembly Addr}
    (step : AssemblyStep nttInit nttN inserted assembly next)
    (fresh : ∀ block ∈ inserted, (insertedEntry assembly.pending block).bothArrived = true →
      assembly.answers block.header.seqId = 0)
    (once : AnsweredOnce assembly) : AnsweredOnce next := by
  cases step with
  | kept => exact once
  | spawned addr =>
      have same : ∀ seqId, Assembly.answers
          { assembly with tasks := assembly.tasks ++ [⟨addr, .receiving⟩] } seqId =
            assembly.answers seqId := by
        intro seqId
        simp [Assembly.answers, Assembly.counted, Assembly.sentTo, List.countP_append, Stage.sends]
      exact ⟨fun seqId => (same seqId).symm ▸ once.answers seqId,
        fun seqId first second => (same seqId).symm ▸ once.complete seqId first second⟩
  | failed index task found stage =>
      exact once.move found rfl (fun _ => by rw [stage]; rfl) once.complete
  | received index task block found stage =>
      exact once.move found rfl (fun _ => by rw [stage]; rfl) once.complete
  | refined index task block found stage =>
      exact once.move found rfl (fun _ => by rw [stage]; rfl) once.complete
  | inserted index task block found stage =>
      refine once.move found rfl (fun seqId => ?_) fun seqId first second => ?_
      · rw [stage, (afterInsert_counts assembly.pending block seqId).1]
        rfl
      · by_cases same : seqId = block.header.seqId
        · subst same
          rw [assembly.stored_written, Bool.toNat_eq_one, Option.bind_some] at first second
          exact fresh block rfl (by rw [PendingBlock.bothArrived_eq, first, second]; rfl)
        · rw [Assembly.stored_unwritten same] at first second
          exact once.complete seqId first second
  | removed index task seqId found stage => exact once.removed found stage
  | answered index task result found stage =>
      refine once.move found rfl (fun seqId => ?_) once.complete
      rw [stage, assembly.sentTo_send]
      simp only [Stage.sends, Bool.toNat_false]
      omega

end Steps

/-! ## Whole runs -/

section Runs

variable {Addr : Type} [DecidableEq Addr]
variable {nttInit : UInt32 → Option (List UInt32 → List UInt32 → List Int64)} {nttN : UInt32}

/-- Every task has returned or waits for its stream. -/
def Coordinator.Settled (state : Coordinator Addr) : Prop :=
  ∀ task ∈ state.tasks, task.stage = .receiving ∨ task.stage = .finished

omit [DecidableEq Addr] in
instance (state : Coordinator Addr) : Decidable state.Settled :=
  inferInstanceAs (Decidable (∀ task ∈ state.tasks, _ ∨ _))

/-- One result, of exactly these two residue vectors, for every `seq_id` of which both halves
arrived, and no other result. -/
structure ExactlyOnce (crtRecombine : List UInt32 → List UInt32 → List Int64)
    (state : Coordinator Addr) : Prop where
  complete : ∀ seqId, ∀ first ∈ state.delivered, ∀ second ∈ state.delivered,
    first.IsHalf seqId 0 → second.IsHalf seqId 1 →
      (∃ result, state.sent.filter (fun result => decide (result.seqId = seqId)) = [result] ∧
        result.coeffs = crtRecombine first.residues second.residues) ∧
      state.pending seqId = none
  only : ∀ result ∈ state.sent, ∃ first ∈ state.delivered, ∃ second ∈ state.delivered,
    first.IsHalf result.seqId 0 ∧ second.IsHalf result.seqId 1

omit [DecidableEq Addr] in
theorem Balanced.start (seqId : UInt64) :
    Balanced seqId (Coordinator.start : Coordinator Addr).assembly where
  conserved _ _ := rfl
  removal := rfl

/-- What holds of a state as long as its blocks keep the premises. -/
def Conserving (nttInit : UInt32 → Option (List UInt32 → List UInt32 → List Int64))
    (nttN : UInt32) (state : Coordinator Addr) : Prop :=
  OncePerHalf nttN state.delivered → KnownHalves state.delivered →
    Sourced nttInit nttN (fun _ _ _ => True) state.assembly ∧
      ∀ seqId, Balanced seqId state.assembly

theorem Conserving.step {crtRecombine : List UInt32 → List UInt32 → List Int64}
    (context : nttInit nttN = some crtRecombine) (event : Event Addr) (state : Coordinator Addr)
    (holds : Conserving nttInit nttN state) :
    Conserving nttInit nttN (garnerStep nttInit nttN event state) := by
  intro premise known
  have step := garnerStep_assembly nttInit nttN event state
  have premise' := premise.of_prefix step.delivered_prefix
  have known' := known.of_prefix step.delivered_prefix
  obtain ⟨sourced, balanced⟩ := holds premise' known'
  have fits : ∀ block ∈ event.inserted state,
      BlockFits (fun _ _ _ => True) state.assembly block := by
    intro block inserts
    exact ⟨known' block (step.inserted_delivered sourced inserts), fun _ _ => trivial⟩
  exact ⟨sourced.step (fun _ => trivial) step fits,
    fun seqId => (balanced seqId).step context step sourced premise' known'⟩

theorem conserving_run {crtRecombine : List UInt32 → List UInt32 → List Int64}
    (context : nttInit nttN = some crtRecombine) (schedule : List (Event Addr)) :
    Conserving nttInit nttN (runGarnerLoop nttInit nttN schedule) :=
  serveAll_preserves (Conserving.step context) schedule
    fun _ _ => ⟨Sourced.start, Balanced.start⟩

omit [DecidableEq Addr] in
theorem Coordinator.Settled.counted {state : Coordinator Addr} (settled : state.Settled)
    {stages : Stage → Bool} (receiving : stages .receiving = false)
    (finished : stages .finished = false) : state.assembly.counted stages = 0 := by
  refine List.countP_eq_zero.mpr fun task member => ?_
  rcases settled task member with stage | stage
  · rw [stage, receiving]
    decide
  · rw [stage, finished]
    decide

omit [DecidableEq Addr] in
theorem pending_eq_none {state : Coordinator Addr}
    (sourced : Sourced nttInit nttN (fun _ _ _ => True) state.assembly) {seqId : UInt64}
    (first : state.assembly.stored seqId 0 = 0) (second : state.assembly.stored seqId 1 = 0) :
    state.pending seqId = none := by
  cases found : state.assembly.pending seqId with
  | none => exact found
  | some entry =>
      rcases sourced.occupied seqId entry found with occupied | occupied
      · simp [Assembly.stored, found, occupied] at first
      · simp [Assembly.stored, found, occupied] at second

omit [DecidableEq Addr] in
theorem exactlyOnce_of_balanced {crtRecombine : List UInt32 → List UInt32 → List Int64}
    (context : nttInit nttN = some crtRecombine) {state : Coordinator Addr}
    (premise : OncePerHalf nttN state.delivered) (settled : state.Settled)
    (sourced : Sourced nttInit nttN (fun _ _ _ => True) state.assembly)
    (balanced : ∀ seqId, Balanced seqId state.assembly) : ExactlyOnce crtRecombine state := by
  constructor
  · intro seqId first member second member' half half'
    have present : 0 < halves state.delivered seqId 0 :=
      List.countP_pos_iff.mpr ⟨first, member, decide_eq_true half⟩
    have present' : 0 < halves state.delivered seqId 1 :=
      List.countP_pos_iff.mpr ⟨second, member', decide_eq_true half'⟩
    have limit := premise.once seqId 0 (Or.inl rfl)
    have limit' := premise.once seqId 1 (Or.inr rfl)
    have conserved := (balanced seqId).conserved 0 (Or.inl rfl)
    have conserved' := (balanced seqId).conserved 1 (Or.inr rfl)
    have removal := (balanced seqId).removal
    rw [settled.counted rfl rfl, Assembly.answers, settled.counted rfl rfl] at conserved conserved'
    rw [settled.counted rfl rfl] at removal
    have delivered : state.assembly.delivered = state.delivered := rfl
    rw [delivered] at conserved conserved'
    have once : state.assembly.sentTo seqId = 1 := by omega
    have empty : state.assembly.stored seqId 0 = 0 := by omega
    have empty' : state.assembly.stored seqId 1 = 0 := by omega
    refine ⟨?_, pending_eq_none sourced empty empty'⟩
    rw [Assembly.sentTo, List.countP_eq_length_filter] at once
    obtain ⟨result, sent⟩ := List.length_eq_one_iff.mp once
    obtain ⟨member_sent, answers⟩ :=
      List.mem_filter.mp (sent.symm ▸ List.mem_singleton_self result)
    obtain ⟨other, q1, q2, context', ⟨block, from_first, is_first, -, rfl⟩,
      ⟨block', from_second, is_second, -, rfl⟩, coeffs⟩ := sourced.sent result member_sent
    rw [of_decide_eq_true answers] at is_first is_second
    obtain rfl := Option.some.inj (context.symm.trans context')
    rw [premise.unique (Or.inl rfl) from_first is_first member half,
      premise.unique (Or.inr rfl) from_second is_second member' half'] at coeffs
    exact ⟨result, sent, coeffs⟩
  · intro result member
    obtain ⟨-, -, -, -, ⟨first, from_first, is_first, -⟩, ⟨second, from_second, is_second, -⟩, -⟩ :=
      sourced.sent result member
    exact ⟨first, from_first, second, from_second, is_first, is_second⟩

/-- Once its tasks have run, a run with at most one block of either half and no unknown selector
has answered every complete `seq_id` exactly once. -/
theorem garner_exactlyOnce {crtRecombine : List UInt32 → List UInt32 → List Int64}
    (context : nttInit nttN = some crtRecombine) (schedule : List (Event Addr))
    (premise : OncePerHalf nttN (runGarnerLoop nttInit nttN schedule).delivered)
    (settled : (runGarnerLoop nttInit nttN schedule).Settled)
    (known : KnownHalves (runGarnerLoop nttInit nttN schedule).delivered) :
    ExactlyOnce crtRecombine (runGarnerLoop nttInit nttN schedule) := by
  obtain ⟨sourced, balanced⟩ := conserving_run context schedule premise known
  exact exactlyOnce_of_balanced context premise settled sourced balanced

/-- The block belongs to a known half, agrees with the entry it finds, and does not complete an
entry for a `seq_id` that has its answer. -/
def InsertFits (event : Event Addr) (state : Coordinator Addr) : Prop :=
  ∀ block ∈ event.inserted state,
    (block.header.primeSelector = 0 ∨ block.header.primeSelector = 1) ∧
      (∀ entry ∈ state.pending block.header.seqId,
        block.header.tokenPos = entry.tokenPos ∧ block.header.layerId = entry.layerId) ∧
      ((insertedEntry state.pending block).bothArrived = true →
        state.assembly.answers block.header.seqId = 0)

instance (event : Event Addr) (state : Coordinator Addr) : Decidable (InsertFits event state) :=
  match inserts : event.inserted state with
  | none => .isTrue (by simp [InsertFits, inserts])
  | some block =>
      match found : state.pending block.header.seqId with
      | none =>
          decidable_of_iff
            ((block.header.primeSelector = 0 ∨ block.header.primeSelector = 1) ∧
              ((insertedEntry state.pending block).bothArrived = true →
                state.assembly.answers block.header.seqId = 0))
            (by simp [InsertFits, inserts, found])
      | some entry =>
          decidable_of_iff
            ((block.header.primeSelector = 0 ∨ block.header.primeSelector = 1) ∧
              (block.header.tokenPos = entry.tokenPos ∧ block.header.layerId = entry.layerId) ∧
                ((insertedEntry state.pending block).bothArrived = true →
                  state.assembly.answers block.header.seqId = 0))
            (by simp [InsertFits, inserts, found])

/-- Every result was recombined from one block of either half that carries its header, and no
`seq_id` has two results. -/
structure Faithful (nttInit : UInt32 → Option (List UInt32 → List UInt32 → List Int64))
    (nttN : UInt32) (state : Coordinator Addr) : Prop where
  made : ∀ result ∈ state.sent, ∃ crtRecombine, nttInit nttN = some crtRecombine ∧
    ∃ first ∈ state.delivered, ∃ second ∈ state.delivered,
      first.header = ⟨result.seqId, result.tokenPos, result.layerId, 0⟩ ∧
      second.header = ⟨result.seqId, result.tokenPos, result.layerId, 1⟩ ∧
      result.coeffs = crtRecombine first.residues second.residues
  once : (state.sent.map GarnerResult.seqId).Nodup

def SameHeader (header : ShardBlockHeader) (tokenPos layerId : UInt32) : Prop :=
  header.tokenPos = tokenPos ∧ header.layerId = layerId

omit [DecidableEq Addr] in
theorem Assembly.HasHalf.header {assembly : Assembly Addr} {seqId : UInt64}
    {tokenPos layerId : UInt32} {selector : UInt8} {residues : List UInt32}
    (has : assembly.HasHalf SameHeader seqId tokenPos layerId selector residues) :
    ∃ block ∈ assembly.delivered, block.header = ⟨seqId, tokenPos, layerId, selector⟩ ∧
      block.residues = residues := by
  obtain ⟨⟨⟨seqId, tokenPos, layerId, selector⟩, residues⟩, member, ⟨rfl, rfl⟩, ⟨rfl, rfl⟩, rfl⟩ :=
    has
  exact ⟨_, member, rfl, rfl⟩

omit [DecidableEq Addr] in
theorem faithful_of_sourced {state : Coordinator Addr}
    (sourced : Sourced nttInit nttN SameHeader state.assembly)
    (once : AnsweredOnce state.assembly) : Faithful nttInit nttN state := by
  constructor
  · intro result member
    obtain ⟨crtRecombine, q1, q2, context, first, second, coeffs⟩ := sourced.sent result member
    obtain ⟨block, member, header, rfl⟩ := first.header
    obtain ⟨block', member', header', rfl⟩ := second.header
    exact ⟨crtRecombine, context, block, member, block', member', header, header', coeffs⟩
  · rw [List.nodup_iff_count_le_one]
    intro seqId
    have counts : (state.sent.map GarnerResult.seqId).count seqId =
        state.assembly.sentTo seqId := by
      rw [List.count_eq_countP, List.countP_map]
      rfl
    have limit := once.answers seqId
    rw [Assembly.answers] at limit
    omega

/-- In a run of fitting insertions every result is faithful and no `seq_id` has two. -/
theorem garner_faithful (schedule : List (Event Addr))
    (guarded : GuardedRun (garnerStep nttInit nttN) InsertFits schedule .start) (count : Nat) :
    Faithful nttInit nttN (runGarnerLoop nttInit nttN (schedule.take count)) := by
  have preserved : ∀ (event : Event Addr) (state : Coordinator Addr), InsertFits event state →
      Sourced nttInit nttN SameHeader state.assembly ∧ AnsweredOnce state.assembly →
        Sourced nttInit nttN SameHeader (garnerStep nttInit nttN event state).assembly ∧
          AnsweredOnce (garnerStep nttInit nttN event state).assembly := by
    rintro event state fits ⟨sourced, once⟩
    have step := garnerStep_assembly nttInit nttN event state
    exact ⟨sourced.step (fun _ => ⟨rfl, rfl⟩) step
        (fun block inserts => ⟨(fits block inserts).1, (fits block inserts).2.1⟩),
      once.step step fun block inserts => (fits block inserts).2.2⟩
  have start : AnsweredOnce (Coordinator.start : Coordinator Addr).assembly :=
    ⟨fun _ => Nat.zero_le 1, fun _ _ _ => rfl⟩
  obtain ⟨sourced, once⟩ := (guarded.take count).preserves preserved ⟨Sourced.start, start⟩
  exact faithful_of_sourced sourced once

end Runs

/-! ## Runs of one worker -/

/-- A context for 128 residues; equal residues below both primes recombine to themselves. -/
def smallNtt (length : UInt32) : Option (List UInt32 → List UInt32 → List Int64) :=
  if length = 128 then some fun q1 _ => q1.map fun residue => Int64.ofNat residue.toNat else none

def smallBlock (tokenPos : UInt32) (primeSelector : UInt8) (residue : UInt32) : ResidueBlock where
  header := ⟨3, tokenPos, 0, primeSelector⟩
  residues := List.replicate 128 residue

/-- A stream of connection 0 with this block, whose task runs to its end. -/
def blockArrives (task : Nat) (block : ResidueBlock) : List (Event Nat) :=
  [.acceptUni 0, .receive task (.ok (sendBlock block)), .resume task, .resume task, .resume task,
    .resume task]

/-- A block with `prime_selector` 2 is taken for the second half. -/
def unknownSelector : List (Event Nat) :=
  .accept 7 :: (blockArrives 0 (smallBlock 0 0 5) ++ blockArrives 1 (smallBlock 0 2 5))

/-- The halves of two token positions under one `seq_id`. -/
def mixedHeaders : List (Event Nat) :=
  .accept 7 :: (blockArrives 0 (smallBlock 0 0 5) ++ blockArrives 1 (smallBlock 1 1 5))

/-- Both halves and then both once more. -/
def resentHalves : List (Event Nat) :=
  .accept 7 :: (blockArrives 0 (smallBlock 0 0 5) ++ blockArrives 1 (smallBlock 0 1 5) ++
    blockArrives 2 (smallBlock 0 0 5) ++ blockArrives 3 (smallBlock 0 1 5))

set_option maxRecDepth 4000

theorem unknownSelector_delivered :
    (runGarnerLoop smallNtt 128 unknownSelector).delivered =
      [smallBlock 0 0 5, smallBlock 0 2 5] := by decide

theorem unknownSelector_sent :
    (runGarnerLoop smallNtt 128 unknownSelector).sent =
      [⟨3, 0, 0, List.replicate 128 5⟩] := by decide

theorem garner_unknownSelector :
    OncePerHalf 128 (runGarnerLoop smallNtt 128 unknownSelector).delivered ∧
      (runGarnerLoop smallNtt 128 unknownSelector).Settled ∧
      ¬ ExactlyOnce (fun q1 _ => q1.map fun residue => Int64.ofNat residue.toNat)
        (runGarnerLoop smallNtt 128 unknownSelector) := by
  refine ⟨oncePerHalf_of_nodup (by decide) (by decide), by decide,
    fun exact_once => ?_⟩
  have sent := unknownSelector_sent
  obtain ⟨-, -, second, member, -, half⟩ :=
    exact_once.only _ (sent.symm ▸ List.mem_singleton_self _)
  rw [unknownSelector_delivered] at member
  rcases List.mem_pair.mp member with rfl | rfl
  · exact absurd half (by decide)
  · exact absurd half (by decide)

theorem garner_exactlyOnce_interleaved :
    ExactlyOnce (fun q1 _ => q1.map fun residue => Int64.ofNat residue.toNat)
      (runGarnerLoop smallNtt 128
        [.accept 7, .accept 8, .acceptUni 0, .acceptUni 1,
          .receive 0 (.ok (sendBlock (smallBlock 0 0 5))),
          .receive 1 (.ok (sendBlock (smallBlock 0 1 5))),
          .resume 1, .resume 0, .resume 0, .resume 1, .resume 1, .resume 1]) :=
  garner_exactlyOnce rfl _ (oncePerHalf_of_nodup (by decide) (by decide))
    (by decide) (by decide)

theorem garner_unfaithful :
    ¬ Faithful smallNtt 128 (runGarnerLoop smallNtt 128 unknownSelector) ∧
      ¬ Faithful smallNtt 128 (runGarnerLoop smallNtt 128 mixedHeaders) ∧
      ¬ Faithful smallNtt 128 (runGarnerLoop smallNtt 128 resentHalves) := by
  refine ⟨fun faithful => ?_, fun faithful => ?_, fun faithful => ?_⟩
  · have sent := unknownSelector_sent
    obtain ⟨-, -, -, -, second, member, -, header, -⟩ :=
      faithful.made _ (sent.symm ▸ List.mem_singleton_self _)
    rw [unknownSelector_delivered] at member
    rcases List.mem_pair.mp member with rfl | rfl
    · exact absurd header (by decide)
    · exact absurd header (by decide)
  · have sent : (runGarnerLoop smallNtt 128 mixedHeaders).sent =
        [⟨3, 0, 0, List.replicate 128 5⟩] := by decide
    have delivered : (runGarnerLoop smallNtt 128 mixedHeaders).delivered =
        [smallBlock 0 0 5, smallBlock 1 1 5] := by decide
    obtain ⟨-, -, -, -, second, member, -, header, -⟩ :=
      faithful.made _ (sent.symm ▸ List.mem_singleton_self _)
    rw [delivered] at member
    rcases List.mem_pair.mp member with rfl | rfl
    · exact absurd header (by decide)
    · exact absurd header (by decide)
  · exact absurd faithful.once (by decide)

theorem garner_faithful_resent :
    Faithful smallNtt 128 (runGarnerLoop smallNtt 128
      ((.accept 7 :: (blockArrives 0 (smallBlock 0 0 5) ++ blockArrives 1 (smallBlock 0 0 5) ++
        blockArrives 2 (smallBlock 0 1 5))).take 30)) :=
  garner_faithful _ (by decide) 30

end KairosEngine.Network
