import KairosEngine.Cuda.MoeRouting

/-!
# The host-free MID against today's

Both MIDs give the combine kernel a list of weights and rows, in ascending expert order.
Today's reads every expert from the row it was routed to; P2.3's reads an expert from the
rank row where the speculation named it and from a CPU row otherwise.
-/

namespace KairosEngine.Cuda

variable {Float Double Row : Type}

/-! ## The combine kernels -/

/-- A combine list and the sixteen-row output buffer it reads. -/
structure MidCombine (Float Row : Type) where
  entries : List (Float × Nat)
  rows : Nat → Row

/-- `k_moe_combine_ord` at one element of the accumulator. -/
def kMoeCombineOrd (arith : MoeArith Float Double) (entries : List (Float × Nat))
    (outs : Nat → Nat → Float) (acc : Nat → Float) (i : Nat) : Float :=
  entries.foldl (fun a entry => arith.add a (arith.mul entry.1 (outs entry.2 i))) (acc i)

/-- `k_moe_combine_ord_hf`: the rows from eight on are the CPU's. -/
def kMoeCombineOrdHf (arith : MoeArith Float Double) (entries : List (Float × Nat))
    (goutHf rowsMapped : Nat → Nat → Float) (acc : Nat → Float) (i : Nat) : Float :=
  entries.foldl
    (fun a entry =>
      arith.add a (arith.mul entry.1
        (if entry.2 < 8 then goutHf entry.2 i else rowsMapped (entry.2 - 8) i)))
    (acc i)

/-- The weighted outputs today's combine adds, in order. -/
def MidCombine.additions (combine : MidCombine Float Row) : List (Float × Row) :=
  combine.entries.map fun entry => (entry.1, combine.rows entry.2)

/-- Those the host-free combine adds; its CPU rows lie behind the eight GPU rows. -/
def MidCombine.additionsHf (combine : MidCombine Float Row) : List (Float × Row) :=
  combine.entries.map fun entry =>
    (entry.1, if entry.2 < 8 then combine.rows entry.2 else combine.rows (8 + (entry.2 - 8)))

theorem kMoeCombineOrd_eq (arith : MoeArith Float Double)
    (combine : MidCombine Float (Nat → Float)) (acc : Nat → Float) (i : Nat) :
    kMoeCombineOrd arith combine.entries combine.rows acc i =
      combine.additions.foldl (fun a added => arith.add a (arith.mul added.1 (added.2 i)))
        (acc i) := by
  rw [kMoeCombineOrd, MidCombine.additions, List.foldl_map]

theorem kMoeCombineOrdHf_eq (arith : MoeArith Float Double)
    (combine : MidCombine Float (Nat → Float)) (acc : Nat → Float) (i : Nat) :
    kMoeCombineOrdHf arith combine.entries combine.rows (fun row => combine.rows (8 + row)) acc i =
      combine.additionsHf.foldl (fun a added => arith.add a (arith.mul added.1 (added.2 i)))
        (acc i) := by
  rw [kMoeCombineOrdHf, MidCombine.additionsHf, List.foldl_map]
  congr 1
  funext a entry
  split
  next => rfl
  next => rfl

/-! ## The lists -/

/-- The row of every expert: its GPU row, or the next CPU row. -/
def numberRows : List (Option Nat) → Nat → List Nat
  | [], _ => []
  | some row :: rest, j => row :: numberRows rest j
  | none :: rest, j => (8 + j) :: numberRows rest (j + 1)

/-- The experts of the CPU rows. -/
def cpuExperts (active : List Nat) (gpuRows : List (Option Nat)) : List Nat :=
  ((active.zip gpuRows).filter fun pair => pair.2.isNone).map Prod.fst

/-- The CPU rows, uploaded behind the eight GPU rows. -/
def uploadRows (gpu stale : Nat → Row) (cpuOut : Nat → Row) (onCpu : List Nat) (row : Nat) : Row :=
  if row < 8 then gpu row
  else
    match onCpu[row - 8]? with
    | some expert => cpuOut expert
    | none => stale row

/-- The outputs of the experts on either engine, and what the row buffers held before. -/
structure ExpertOutputs (Row : Type) where
  cpuOut : Nat → Row
  gpuOut : Nat → Row
  stale : Nat → Row

/-- The combine list of the active experts. -/
def combineList (outputs : ExpertOutputs Row) (weight : Nat → Float) (active : List Nat)
    (gpuRows : List (Option Nat)) (gpu : Nat → Row) : MidCombine Float Row where
  entries := (active.map weight).zip (numberRows gpuRows 0)
  rows := uploadRows gpu outputs.stale outputs.cpuOut (cpuExperts active gpuRows)

/-- Today's rows: a resident expert keeps its place in the list, and the grouped launch
writes it there. -/
def groupedRows (ready : Nat → Bool) (active : List Nat) : List (Option Nat) :=
  active.zipIdx.map fun entry => if ready entry.1 then some entry.2 else none

def groupedGpu (outputs : ExpertOutputs Row) (ready : Nat → Bool) (active : List Nat)
    (row : Nat) : Row :=
  match active[row]? with
  | some expert => if ready expert then outputs.gpuOut expert else outputs.stale row
  | none => outputs.stale row

/-- The grouped path of `g4_ffn_apply` and its combine; none where the router named no
usable expert or too many. -/
def groupedMid (arith : MoeArith Float Double) (outputs : ExpertOutputs Row) (dsc : Nat → Float)
    (bktw : Nat → Float) (ready : Nat → Bool) (logits : List Float) (NU : Nat) :
    Option (MidCombine Float Row) := do
  let buckets ← bucketExperts logits.length (arith.moeTopkHost logits NU) ⟨fun _ => 0, bktw⟩
  let active := activeExperts logits.length buckets
  if 8 < active.length then none
  else
    return combineList outputs (fun expert => arith.mul (buckets.w expert) (dsc expert)) active
      (groupedRows ready active) (groupedGpu outputs ready active)

/-- A published speculation row: expert ids and slots by rank, -1 where there is none. -/
structure Speculation where
  id : Nat → Int
  slot : Nat → Int

/-- The rank row of an expert that the speculation found resident. -/
def Speculation.gpuRow (spec : Speculation) (NU expert : Nat) : Option Nat :=
  ((List.range NU).find? fun rank => decide (spec.id rank = expert)).bind fun rank =>
    if 0 ≤ spec.slot rank then some rank else none

/-- The service part of `hf23_mid`. -/
def hf23Mid (arith : MoeArith Float Double) (outputs : ExpertOutputs Row) (dsc : Nat → Float)
    (bktw : Nat → Float) (spec : Speculation) (gpu : Nat → Row) (logits : List Float) (NU : Nat) :
    Option (MidCombine Float Row) := do
  let buckets ← bucketExperts logits.length (arith.moeTopkHost logits NU) ⟨fun _ => 0, bktw⟩
  let active := activeExperts logits.length buckets
  if 8 < active.length then none
  else
    return combineList outputs (fun expert => arith.mul (buckets.w expert) (dsc expert)) active
      (active.map (spec.gpuRow NU)) gpu

/-! ## The rows of a list -/

/-- Reading the numbered rows gives the experts' outputs in order. -/
theorem map_numberRows (read : Nat → Row) (out : Nat → Row) (active : List Nat)
    (gpuRows : List (Option Nat)) (j : Nat) (lengths : active.length = gpuRows.length)
    (gpuReads : ∀ expert row, (expert, some row) ∈ active.zip gpuRows → read row = out expert)
    (cpuReads : ∀ place expert, (cpuExperts active gpuRows)[place]? = some expert →
      read (8 + j + place) = out expert) :
    (numberRows gpuRows j).map read = active.map out := by
  induction active generalizing gpuRows j with
  | nil =>
      rw [List.length_eq_zero_iff.mp lengths.symm]
      rfl
  | cons expert rest inductionHypothesis =>
      cases gpuRows with
      | nil => cases lengths
      | cons row rows =>
          have later := fun expert row member =>
            gpuReads expert row (List.mem_cons_of_mem _ member)
          cases row with
          | some row =>
              rw [numberRows, List.map_cons, List.map_cons,
                gpuReads expert row List.mem_cons_self]
              rw [inductionHypothesis rows j (Nat.succ.inj lengths) later cpuReads]
          | none =>
              have first := cpuReads 0 expert rfl
              rw [numberRows, List.map_cons, List.map_cons]
              rw [Nat.add_zero] at first
              rw [first, inductionHypothesis rows (j + 1) (Nat.succ.inj lengths) later]
              intro place other present
              have read := cpuReads (place + 1) other present
              rwa [show 8 + j + (place + 1) = 8 + (j + 1) + place by omega] at read

/-- The CPU rows are numbered without a gap. -/
theorem filter_numberRows {gpuRows : List (Option Nat)}
    (inside : ∀ row, some row ∈ gpuRows → row < 8) (j : Nat) :
    (numberRows gpuRows j).filter (fun row => decide (8 ≤ row)) =
      List.range' (8 + j) (gpuRows.countP Option.isNone) := by
  induction gpuRows generalizing j with
  | nil => rfl
  | cons row rest inductionHypothesis =>
      have later := fun other member => inside other (List.mem_cons_of_mem row member)
      cases row with
      | some row =>
          have below := inside row List.mem_cons_self
          rw [numberRows, List.filter_cons_of_neg (by simpa using below),
            inductionHypothesis later, List.countP_cons_of_neg (by simp)]
      | none =>
          rw [numberRows, List.filter_cons_of_pos (by simp), inductionHypothesis later,
            List.countP_cons_of_pos (by simp), List.range'_succ, Nat.add_assoc]

theorem numberRows_lt {gpuRows : List (Option Nat)} (inside : ∀ row, some row ∈ gpuRows → row < 8)
    (few : gpuRows.length ≤ 8) : ∀ row ∈ numberRows gpuRows 0, row < 16 := by
  intro row member
  by_cases gpu : row < 8
  · omega
  · have onCpu : row ∈ (numberRows gpuRows 0).filter fun row => decide (8 ≤ row) :=
      List.mem_filter.mpr ⟨member, by simpa using gpu⟩
    rw [filter_numberRows inside, List.mem_range'_1] at onCpu
    have count := @List.countP_le_length _ Option.isNone gpuRows
    omega

theorem length_numberRows (gpuRows : List (Option Nat)) (j : Nat) :
    (numberRows gpuRows j).length = gpuRows.length := by
  induction gpuRows generalizing j with
  | nil => rfl
  | cons row rest inductionHypothesis =>
      cases row with
      | some row => rw [numberRows, List.length_cons, List.length_cons, inductionHypothesis]
      | none => rw [numberRows, List.length_cons, List.length_cons, inductionHypothesis]

variable {outputs : ExpertOutputs Row} {weight : Nat → Float} {active : List Nat}
variable {gpuRows : List (Option Nat)} {gpu : Nat → Row}

/-- A combine list whose GPU rows are right adds every active expert's output in order. -/
theorem additions_combineList (lengths : active.length = gpuRows.length)
    (inside : ∀ row, some row ∈ gpuRows → row < 8)
    (gpuReads : ∀ expert row, (expert, some row) ∈ active.zip gpuRows →
      gpu row = outputs.gpuOut expert)
    (same : ∀ expert, outputs.cpuOut expert = outputs.gpuOut expert) :
    (combineList outputs weight active gpuRows gpu).additions =
      active.map fun expert => (weight expert, outputs.gpuOut expert) := by
  have rows := map_numberRows
    (uploadRows gpu outputs.stale outputs.cpuOut (cpuExperts active gpuRows)) outputs.gpuOut active
    gpuRows 0 lengths
    (fun expert row member => by
      rw [uploadRows, if_pos (inside row (List.of_mem_zip member).2)]
      exact gpuReads expert row member)
    (fun place expert present => by
      rw [uploadRows, if_neg (by omega), show 8 + 0 + place - 8 = place by omega, present]
      exact same expert)
  refine List.zip_map_right.symm.trans ?_
  show (active.map weight).zip ((numberRows gpuRows 0).map (uploadRows gpu outputs.stale
    outputs.cpuOut (cpuExperts active gpuRows))) = _
  rw [rows, List.zip_map']

theorem additionsHf_eq (combine : MidCombine Float Row) :
    combine.additionsHf = combine.additions := by
  apply List.map_congr_left
  intro entry _
  split
  next => rfl
  next above => rw [show 8 + (entry.2 - 8) = entry.2 by omega]

/-! ## The two MIDs -/

theorem mem_zip_groupedRows {ready : Nat → Bool} {expert row : Nat}
    (member : (expert, some row) ∈ active.zip (groupedRows ready active)) :
    row < active.length ∧ active[row]? = some expert ∧ ready expert = true := by
  obtain ⟨place, present⟩ := List.mem_iff_getElem?.mp member
  simp only [groupedRows, List.getElem?_zip_eq_some, List.getElem?_map, List.getElem?_zipIdx,
    Option.map_map, Option.map_eq_some_iff, Function.comp_apply] at present
  obtain ⟨here, expert', there, chosen⟩ := present
  rw [here, Option.some.injEq] at there
  subst there
  simp only [Nat.zero_add] at chosen
  split at chosen
  next isReady =>
    cases chosen
    exact ⟨(List.getElem?_eq_some_iff.mp here).1, here, isReady⟩
  next => cases chosen

theorem groupedRows_lt {ready : Nat → Bool} {row : Nat}
    (member : some row ∈ groupedRows ready active) : row < active.length := by
  simp only [groupedRows, List.mem_map] at member
  obtain ⟨entry, present, chosen⟩ := member
  split at chosen
  next =>
    cases chosen
    have inside := List.snd_lt_of_mem_zipIdx present
    omega
  next => cases chosen

theorem gpuRow_eq_some {spec : Speculation} {NU expert row : Nat}
    (found : spec.gpuRow NU expert = some row) :
    row < NU ∧ spec.id row = expert ∧ 0 ≤ spec.slot row := by
  obtain ⟨rank, named, resident⟩ := Option.bind_eq_some_iff.mp found
  split at resident
  next hasSlot =>
    cases resident
    exact ⟨List.mem_range.mp (List.mem_of_find?_eq_some named),
      by simpa using List.find?_some named, hasSlot⟩
  next => cases resident

theorem gpuRow_of_mem_zip {row? : Nat → Option Nat} {expert row : Nat}
    (member : (expert, some row) ∈ active.zip (active.map row?)) : row? expert = some row := by
  obtain ⟨place, present⟩ := List.mem_iff_getElem?.mp member
  rw [List.getElem?_zip_eq_some, List.getElem?_map] at present
  obtain ⟨here, chosen⟩ := present
  rwa [here, Option.map_some, Option.some.injEq] at chosen

section Mids

variable (arith : MoeArith Float Double) (outputs : ExpertOutputs Row) (dsc : Nat → Float)
variable (bktw : Nat → Float) (ready : Nat → Bool) (spec : Speculation) (gpu : Nat → Row)
variable (logits : List Float) (NU : Nat)

/-- The experts the router chose, ascending, with their weights. -/
def routedExperts : Option (List (Nat × Float)) :=
  (bucketExperts logits.length (arith.moeTopkHost logits NU) ⟨fun _ => 0, bktw⟩).map
    fun buckets => (activeExperts logits.length buckets).map fun expert =>
      (expert, arith.mul (buckets.w expert) (dsc expert))

variable {arith outputs dsc bktw ready spec gpu logits NU}

theorem active_le {buckets : Buckets Float} (few : NU ≤ 8)
    (fits : bucketExperts logits.length (arith.moeTopkHost logits NU) ⟨fun _ => 0, bktw⟩ =
      some buckets) : (activeExperts logits.length buckets).length ≤ 8 := by
  have bound := length_activeExperts (fun _ => rfl) fits
  rw [arith.length_moeTopkHost] at bound
  exact bound.trans few

/-- Today's MID adds the routed experts' outputs in ascending order. -/
theorem groupedMid_additions (few : NU ≤ 8)
    (same : ∀ expert, outputs.cpuOut expert = outputs.gpuOut expert) :
    (groupedMid arith outputs dsc bktw ready logits NU).map MidCombine.additions =
      (routedExperts arith dsc bktw logits NU).map fun routed =>
        routed.map fun pair => (pair.2, outputs.gpuOut pair.1) := by
  unfold groupedMid routedExperts
  cases fits : bucketExperts logits.length (arith.moeTopkHost logits NU) ⟨fun _ => 0, bktw⟩ with
  | none => rfl
  | some buckets =>
      have few := active_le few fits
      simp only [Option.bind_eq_bind, Option.bind_some, if_neg (not_lt.mpr few), Option.pure_def,
        Option.map_some, List.map_map]
      rw [additions_combineList (by simp [groupedRows]) _ _ same]
      · rfl
      · exact fun row member => (groupedRows_lt member).trans_le few
      · intro expert row member
        obtain ⟨_, here, isReady⟩ := mem_zip_groupedRows member
        rw [groupedGpu, here]
        simp only [isReady, if_true]

/-- So does the host-free one. -/
theorem hf23Mid_additions (few : NU ≤ 8)
    (gpuRows : ∀ rank < NU, ∀ expert : Nat, spec.id rank = expert → 0 ≤ spec.slot rank →
      gpu rank = outputs.gpuOut expert)
    (same : ∀ expert, outputs.cpuOut expert = outputs.gpuOut expert) :
    (hf23Mid arith outputs dsc bktw spec gpu logits NU).map MidCombine.additions =
      (routedExperts arith dsc bktw logits NU).map fun routed =>
        routed.map fun pair => (pair.2, outputs.gpuOut pair.1) := by
  unfold hf23Mid routedExperts
  cases fits : bucketExperts logits.length (arith.moeTopkHost logits NU) ⟨fun _ => 0, bktw⟩ with
  | none => rfl
  | some buckets =>
      have active := active_le few fits
      simp only [Option.bind_eq_bind, Option.bind_some, if_neg (not_lt.mpr active), Option.pure_def,
        Option.map_some, List.map_map]
      rw [additions_combineList (by simp) _ _ same]
      · rfl
      · intro row member
        obtain ⟨expert, _, found⟩ := List.mem_map.mp member
        exact (gpuRow_eq_some found).1.trans_le few
      · intro expert row member
        obtain ⟨inside, named, resident⟩ := gpuRow_eq_some (gpuRow_of_mem_zip member)
        exact gpuRows row inside expert named resident

/-- Every row of the list lies in the sixteen-row buffer, and no CPU row serves two experts. -/
theorem hf23Mid_rows {combine : MidCombine Float Row} (few : NU ≤ 8)
    (served : hf23Mid arith outputs dsc bktw spec gpu logits NU = some combine) :
    (∀ entry ∈ combine.entries, entry.2 < 16) ∧
      ((combine.entries.map Prod.snd).filter fun row => decide (8 ≤ row)).Nodup := by
  unfold hf23Mid at served
  cases fits : bucketExperts logits.length (arith.moeTopkHost logits NU) ⟨fun _ => 0, bktw⟩ with
  | none =>
      rw [fits] at served
      cases served
  | some buckets =>
      have active := active_le few fits
      simp only [fits, Option.bind_eq_bind, Option.bind_some, if_neg (not_lt.mpr active),
        Option.pure_def, Option.some.injEq] at served
      subst served
      have inside : ∀ row, some row ∈
          (activeExperts logits.length buckets).map (spec.gpuRow NU) → row < 8 := by
        intro row member
        obtain ⟨expert, _, found⟩ := List.mem_map.mp member
        exact (gpuRow_eq_some found).1.trans_le few
      constructor
      · intro entry member
        apply numberRows_lt inside (by rwa [List.length_map])
        exact (List.of_mem_zip member).2
      · rw [combineList, List.map_snd_zip (by rw [length_numberRows]; simp),
          filter_numberRows inside]
        exact List.nodup_range'

end Mids

/-- The two MIDs agree on whether there is a list, add the same weighted outputs in the same
order, and so leave the same accumulator. -/
theorem hf23Mid_matches_groupedMid (arith : MoeArith Float Double)
    (outputs : ExpertOutputs (Nat → Float)) (staleToday : Nat → Nat → Float)
    (dsc bktw : Nat → Float) (ready : Nat → Bool) (spec : Speculation) (gpu : Nat → Nat → Float)
    (logits : List Float) (NU : Nat) (few : NU ≤ 8)
    (gpuRows : ∀ rank < NU, ∀ expert : Nat, spec.id rank = expert → 0 ≤ spec.slot rank →
      gpu rank = outputs.gpuOut expert)
    (same : ∀ expert, outputs.cpuOut expert = outputs.gpuOut expert) :
    let hostFree := hf23Mid arith outputs dsc bktw spec gpu logits NU
    let today := groupedMid arith { outputs with stale := staleToday } dsc bktw ready logits NU
    hostFree.map MidCombine.additionsHf = today.map MidCombine.additions ∧
      (∀ hf ∈ hostFree, ∀ td ∈ today, ∀ acc i,
        kMoeCombineOrdHf arith hf.entries hf.rows (fun row => hf.rows (8 + row)) acc i =
          kMoeCombineOrd arith td.entries td.rows acc i) ∧
      ∀ hf ∈ hostFree, (∀ entry ∈ hf.entries, entry.2 < 16) ∧
        ((hf.entries.map Prod.snd).filter fun row => decide (8 ≤ row)).Nodup := by
  intro hostFree today
  have agree : hostFree.map MidCombine.additionsHf = today.map MidCombine.additions := by
    have todayAdds := @groupedMid_additions _ _ _ arith { outputs with stale := staleToday } dsc
      bktw ready logits NU few same
    rw [show (MidCombine.additionsHf : MidCombine Float (Nat → Float) → _) =
      MidCombine.additions from funext additionsHf_eq]
    exact (hf23Mid_additions few gpuRows same).trans todayAdds.symm
  refine ⟨agree, ?_, fun hf served => hf23Mid_rows few served⟩
  intro hf served td grouped acc i
  rw [served, grouped, Option.map_some, Option.map_some, Option.some.injEq] at agree
  rw [kMoeCombineOrdHf_eq, kMoeCombineOrd_eq, agree]

/-- Four experts, two used: the speculation named expert 3 at rank 0 with a slot and expert 2,
wrongly, at rank 1. -/
theorem hf23Mid_matches_groupedMid_small :
    let arith : MoeArith Int Int :=
      { lt := fun a b => decide (a < b), add := (· + ·), mul := (· * ·), div := fun a _ => a
        zero := 0, negOne := -1, clampMin := 1, widen := id, narrow := id, addD := (· + ·)
        subD := (· - ·), divD := fun a _ => a, expD := fun a => a + 10, zeroD := 0 }
    let outputs : ExpertOutputs (Nat → Int) :=
      ⟨fun expert _ => expert, fun expert _ => expert, fun _ _ => 0⟩
    let spec : Speculation := ⟨fun rank => 3 - rank, fun rank => 4 - rank⟩
    let hostFree := hf23Mid arith outputs (fun _ => 1) (fun _ => 0) spec
      (fun rank _ => 3 - rank) [1, 5, 2, 7] 2
    hostFree.map MidCombine.entries = some [(8, 8), (10, 0)] ∧
      ∀ hf ∈ hostFree, (∀ entry ∈ hf.entries, entry.2 < 16) ∧
        ((hf.entries.map Prod.snd).filter fun row => decide (8 ≤ row)).Nodup := by
  intro arith outputs spec hostFree
  refine ⟨by decide, (hf23Mid_matches_groupedMid arith outputs (fun _ _ => 0) (fun _ => 1)
    (fun _ => 0) (fun _ => true) spec (fun rank _ => 3 - rank) [1, 5, 2, 7] 2 (by decide) ?_
    (fun _ => rfl)).2.2⟩
  intro rank inside expert named _
  have value : (3 - (rank : Int)) = expert := named
  funext i
  exact value

end KairosEngine.Cuda
