import KairosEngine.Daemon.RecallFrame
import KairosEngine.Daemon.RecallTurns
import KairosEngine.Daemon.RegistryFile

/-!
# Whose policy governs a delivery

The L5 lane carries score, name and text of its pick through two side passes and finds the policy
again by the name, so the first scored candidate of that name lends its policy.
-/

namespace KairosEngine.Daemon

open KairosEngine.Library

namespace RecallTurn

variable {turn : RecallTurn} {flags : L5Flags} {pool : L5Pool}

/-! ## Which candidate is picked -/

/-- The place that CANON leaves the pick at. -/
def canonIndex (turn : RecallTurn) (flags : L5Flags) (pool : L5Pool) : Nat :=
  match turn.canonPass flags pool with
  | some outcome =>
      let canon := turn.canonName outcome.reply
      if outcome.ok && decide (canon ≠ []) then (turn.canonBest pool canon).1 else 0
  | none => 0

/-- The place among the scored candidates of the pick that the dispatch sees. -/
def pickIndex (turn : RecallTurn) (flags : L5Flags) (pool : L5Pool) : Nat :=
  match turn.rerankPass flags pool with
  | some outcome =>
      match (if outcome.ok then turn.rerankIndex pool outcome.reply else none) with
      | some index => if index = 0 then turn.canonIndex flags pool else index
      | none => turn.canonIndex flags pool
  | none => turn.canonIndex flags pool

theorem canonBest_lt (canon : Text) (scored : pool.scored ≠ []) :
    (turn.canonBest pool canon).1 < pool.scored.length := by
  unfold canonBest
  apply List.foldlRecOn (motive := fun best : Nat × Nat => best.1 < pool.scored.length)
  · exact List.length_pos_of_ne_nil scored
  · intro best inside entry member
    split
    next =>
      have bound := (List.mem_zipIdx member).2.1
      rw [Nat.zero_add, List.length_map, List.length_take] at bound
      exact Nat.lt_of_lt_of_le bound (Nat.min_le_right ..)
    next => exact inside

theorem mem_swapAt {perm : List Nat} {i j index : Nat} (member : index ∈ swapAt perm i j) :
    index ∈ perm ∨ index = 0 := by
  have read : ∀ place, perm.getD place 0 ∈ perm ∨ perm.getD place 0 = 0 := by
    intro place
    rw [List.getD_eq_getElem?_getD]
    cases found : perm[place]? with
    | none => exact Or.inr rfl
    | some entry => exact Or.inl (List.mem_of_getElem? found)
  rcases List.mem_or_eq_of_mem_set member with first | rfl
  · rcases List.mem_or_eq_of_mem_set first with kept | rfl
    · exact Or.inl kept
    · exact read j
  · exact read i

theorem mem_shuffleFrom {i index : Nat} {seed : UInt64} {perm : List Nat}
    (member : index ∈ shuffleFrom i seed perm) : index ∈ perm ∨ index = 0 := by
  induction i generalizing seed perm with
  | zero => exact Or.inl member
  | succ i inductionHypothesis =>
      rcases inductionHypothesis member with swapped | zero
      · exact mem_swapAt swapped
      · exact Or.inr zero

theorem rerankIndex_lt {reply : Text} {index : Nat} (scored : pool.scored ≠ [])
    (found : turn.rerankIndex pool reply = some index) : index < pool.scored.length := by
  obtain ⟨letter, _, slot⟩ := Option.bind_eq_some_iff.mp found
  have member := List.mem_of_getElem? slot
  rcases mem_shuffleFrom member with ranged | rfl
  · exact Nat.lt_of_lt_of_le (List.mem_range.mp ranged) (Nat.min_le_left ..)
  · exact List.length_pos_of_ne_nil scored

theorem getElem_pick {index : Nat} (inside : index < pool.scored.length) (fallback : Pick) :
    ∃ entry, pool.scored[index]? = some entry ∧
      ((pool.scored[index]?).map Scored.pick).getD fallback = entry.pick := by
  refine ⟨pool.scored.get ⟨index, inside⟩, List.getElem?_eq_getElem inside, ?_⟩
  rw [List.getElem?_eq_getElem inside]
  rfl

theorem canonPick_at (scored : pool.scored ≠ []) :
    ∃ entry, pool.scored[turn.canonIndex flags pool]? = some entry ∧
      turn.canonPick flags pool = entry.pick := by
  have top : ∃ entry, pool.scored[0]? = some entry ∧ topPick pool.scored = entry.pick := by
    rw [topPick, List.head?_eq_getElem?]
    exact getElem_pick (List.length_pos_of_ne_nil scored) _
  unfold canonIndex canonPick
  cases turn.canonPass flags pool with
  | none => exact top
  | some outcome =>
      dsimp only
      split
      next => exact getElem_pick (canonBest_lt _ scored) _
      next => exact top

/-- The pick of the lane is the candidate at its place. -/
theorem rerankPick_at (scored : pool.scored ≠ []) :
    ∃ entry, pool.scored[turn.pickIndex flags pool]? = some entry ∧
      turn.rerankPick flags pool = entry.pick := by
  have canon := @canonPick_at turn flags pool scored
  unfold pickIndex rerankPick
  cases turn.rerankPass flags pool with
  | none => exact canon
  | some outcome =>
      dsimp only
      cases named : (if outcome.ok then turn.rerankIndex pool outcome.reply else none) with
      | none => exact canon
      | some index =>
          dsimp only
          have found : turn.rerankIndex pool outcome.reply = some index := by
            split at named
            next => exact named
            next => cases named
          split
          next => exact canon
          next => exact getElem_pick (rerankIndex_lt scored found) _

theorem l5Open_scored {entry : Scored} (opens : turn.l5Open = some (flags, pool))
    (member : entry ∈ pool.scored) :
    ∃ query, ∃ ep ∈ l5Candidates turn.geo flags.audit turn.registry turn.nightshift,
      entry = scoreEpisode turn.arith query ep := by
  unfold l5Open l5Pool at opens
  simp only [Option.bind_eq_bind, Option.bind_eq_some_iff, Option.pure_def] at opens
  obtain ⟨flags', -, pool', ⟨user, -, reads⟩, same⟩ := opens
  cases same
  split at reads
  next => cases reads
  next =>
    cases reads
    rw [l5Scored, sortScored, List.mem_mergeSort] at member
    obtain ⟨ep, candidate, rfl⟩ := List.mem_map.mp member
    exact ⟨_, ep, candidate, rfl⟩

/-! ## Whose policy is found -/

/-- The first candidate in front of a place that has its name has its policy, if there is one. -/
def FirstAgrees (scored : List Scored) (index : Nat) : Prop :=
  ∀ picked entry place, scored[index]? = some picked → place < index →
    scored[place]? = some entry → entry.name = picked.name →
    (∀ before < place, ∀ other, scored[before]? = some other → other.name ≠ picked.name) →
      entry.policy = picked.policy

theorem find_name_policy_iff {scored : List Scored} {index : Nat} {picked : Scored}
    (at_ : scored[index]? = some picked) :
    (scored.find? fun entry => entry.name = picked.name).bind Scored.policy = picked.policy ↔
      FirstAgrees scored index := by
  cases found : scored.find? fun entry => entry.name = picked.name with
  | none =>
      have unnamed := List.find?_eq_none.mp found picked (List.mem_of_getElem? at_)
      rw [decide_eq_true_eq] at unnamed
      exact absurd rfl unnamed
  | some first =>
      obtain ⟨named, place, inside, here, earlier⟩ := List.find?_eq_some_iff_getElem.mp found
      rw [decide_eq_true_eq] at named
      have there : scored[place]? = some first := by rw [List.getElem?_eq_getElem inside, here]
      have others : ∀ before < place, ∀ other, scored[before]? = some other →
          other.name ≠ picked.name := by
        intro before below other read same
        have unnamed := earlier before below
        obtain ⟨_, value⟩ := List.getElem?_eq_some_iff.mp read
        rw [value, decide_eq_true same] at unnamed
        cases unnamed
      have reached : place ≤ index := by
        by_contra beyond
        exact others index (Nat.lt_of_not_le beyond) picked at_ rfl
      rw [Option.bind_some]
      constructor
      · intro same other entry slot read below held sameName unnamed
        cases at_.symm.trans read
        -- The first of the name is the one that is found.
        have met : slot = place := by
          rcases Nat.lt_trichotomy slot place with front | even | behind
          · exact absurd sameName (others slot front entry held)
          · exact even
          · exact absurd named (unnamed place behind first there)
        rw [met] at held
        cases there.symm.trans held
        exact same
      · intro agrees
        rcases Nat.lt_or_eq_of_le reached with front | even
        · exact agrees picked first place at_ front there named others
        · rw [even] at there
          cases at_.symm.trans there
          rfl

/-- The episode that the lane delivers or declines from is governed by its own policy exactly when
the first scored candidate of its name has that policy. -/
theorem bpol_own_iff (turn : RecallTurn) (flags : L5Flags) (pool : L5Pool) (recalled : Recalled)
    (opens : turn.l5Open = some (flags, pool)) (policyOn : flags.memPolicy = true)
    (answers : turn.l5Recalled = some recalled) :
    ∃ query, ∃ ep ∈ l5Candidates turn.geo flags.audit turn.registry turn.nightshift,
      ep.recalled = recalled ∧
        pool.scored[turn.pickIndex flags pool]? = some (scoreEpisode turn.arith query ep) ∧
          (turn.bpol flags pool = ep.policy ↔
            FirstAgrees pool.scored (turn.pickIndex flags pool)) := by
  have passes : turn.l5Verdict flags pool ≠ .belowTau := by
    intro below
    simp only [l5Recalled, opens, Option.bind_some, below] at answers
    cases answers
  have scored : pool.scored ≠ [] := by
    intro empty
    rcases @rerankPick_picks turn flags pool with blank | ⟨entry, member, -⟩
    · exact passes (l5Verdict_belowTau blank)
    · rw [empty] at member
      cases member
  obtain ⟨picked, at_, pick⟩ := @rerankPick_at turn flags pool scored
  have said : recalled = (picked.name, picked.text) := by
    simp only [l5Recalled, opens, Option.bind_some, pick] at answers
    split at answers
    next => cases answers
    next => cases answers
    next => exact (Option.some.inj answers).symm
    next =>
      split at answers
      next => exact (Option.some.inj answers).symm
      next => cases answers
  obtain ⟨query, ep, candidate, rfl⟩ := l5Open_scored opens (List.mem_of_getElem? at_)
  refine ⟨query, ep, candidate, said.symm, at_, ?_⟩
  rw [← find_name_policy_iff at_, bpol, l5Policy, policyOn, if_pos rfl, pick]
  rfl

end RecallTurn

/-! ## Two memories without a name -/

def secretPolicy : MemPolicy := MemPolicy.fromClass (fun _ => none) "private-secret"

def namelessFlags : L5Flags := { tiedFlags with tauMargin := .finite 0, memPolicy := true }

/-- Two registry rows have no name; the side pass of CANON names what the second is about, which is
a secret. -/
def namelessTurn : RecallTurn :=
  { tiedTurn with
    tokenizer := { threeIds with decodeToken := fun id => if id = 2 then "right".toList else [] }
    registry :=
      [tiedEpisode "?" "The left code is 4.".toList,
        { tiedEpisode "?" "The right code is 9.".toList with policy := some secretPolicy }]
    l5 := some namelessFlags
    canonRun :=
      { soundRun with
        logits := fun index =>
          if index = 0 then [.finite 0, .finite 0, .finite 1] else [.finite 1] } }

def namelessPool : L5Pool where
  user := "What is the code?".toList
  scored :=
    [{ cos := .finite 1, name := "?", text := "The left code is 4.".toList, policy := none },
      { cos := .finite 1, name := "?", text := "The right code is 9.".toList,
        policy := some secretPolicy }]

theorem namelessTurn_l5Open : namelessTurn.l5Open = some (namelessFlags, namelessPool) := by
  have sorted : sortScored namelessPool.scored = namelessPool.scored :=
    List.mergeSort_of_pairwise (by decide)
  have scored : (l5Candidates namelessTurn.geo namelessFlags.audit namelessTurn.registry
      namelessTurn.nightshift).map (scoreEpisode namelessTurn.arith [.finite 1]) =
      namelessPool.scored := by
    decide +kernel
  have user : namelessTurn.user = some namelessPool.user := rfl
  have query : laneQuery namelessTurn.tables namelessTurn.arith namelessTurn.geo namelessFlags
      namelessPool.user namelessTurn.globalQ = [.finite 1] := by decide +kernel
  have pooled : namelessTurn.l5Pool namelessFlags = some namelessPool := by
    rw [RecallTurn.l5Pool, user, Option.bind_eq_bind, Option.bind_some]
    simp only [query, l5Scored, scored, sorted]
    rfl
  change (namelessTurn.l5Pool namelessFlags).bind (fun pool => some (namelessFlags, pool)) = _
  rw [pooled]
  rfl

theorem namelessTurn_recalled :
    namelessTurn.l5Recalled = some ("?", "The right code is 9.".toList) := by
  rw [RecallTurn.l5Recalled, namelessTurn_l5Open]
  decide +kernel

/-- The secret is delivered without its policy. -/
theorem bpol_of_other :
    namelessTurn.l5Recalled = some ("?", "The right code is 9.".toList) ∧
      namelessTurn.bpol namelessFlags namelessPool = none ∧
        ∀ ep ∈ l5Candidates namelessTurn.geo namelessFlags.audit namelessTurn.registry
          namelessTurn.nightshift, ep.text = "The right code is 9.".toList →
            ep.policy = some secretPolicy := by
  refine ⟨namelessTurn_recalled, by decide +kernel, ?_⟩
  decide +kernel

namespace RecallTurn

theorem bpol_own_iff_nameless :
    ∃ query, ∃ ep ∈ l5Candidates namelessTurn.geo namelessFlags.audit namelessTurn.registry
        namelessTurn.nightshift,
      ep.recalled = ("?", "The right code is 9.".toList) ∧
        namelessPool.scored[namelessTurn.pickIndex namelessFlags namelessPool]? =
            some (scoreEpisode namelessTurn.arith query ep) ∧
          (namelessTurn.bpol namelessFlags namelessPool = ep.policy ↔
            FirstAgrees namelessPool.scored
              (namelessTurn.pickIndex namelessFlags namelessPool)) :=
  bpol_own_iff namelessTurn namelessFlags namelessPool _ namelessTurn_l5Open rfl
    namelessTurn_recalled

end RecallTurn

end KairosEngine.Daemon
