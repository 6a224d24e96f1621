import KairosEngine.Daemon.PromptMatch
import KairosEngine.Library.Weaving

/-!
# The retokenization seam only re-spells

What `reseam_join` accepts, and what the prompt says that the caller builds from it: the incoming
text, with gaps and the dressing put between tokens.
-/

namespace KairosEngine.Daemon

open KairosEngine.Library

variable {decode : Decode} {gaps : List Bytes}

/-! ## The gaps -/

theorem woven_of_dropGaps {listed : List Bytes} (subset : listed ⊆ gaps) {pieces : List Bytes}
    {remaining : Bytes} (woven : Woven gaps pieces (dropGaps listed remaining)) :
    Woven gaps pieces remaining := by
  induction listed generalizing remaining with
  | nil => exact woven
  | cons gap rest inductionHypothesis =>
      obtain ⟨member, others⟩ := List.cons_subset.mp subset
      have later := inductionHypothesis others woven
      beta_reduce at later
      split at later
      next spelled =>
        obtain ⟨behind, rfl⟩ := List.isPrefixOf_iff_prefix.mp spelled.2
        rw [List.drop_left] at later
        exact .extra member later
      next => exact later

theorem woven_of_skipGaps {pieces : List Bytes} {remaining : Bytes}
    (woven : Woven gaps pieces (skipGaps gaps remaining)) : Woven gaps pieces remaining := by
  induction remaining using skipGaps.induct gaps with
  | case1 remaining next shorter inductionHypothesis =>
      rw [skipGaps, if_pos shorter] at woven
      exact woven_of_dropGaps (List.Subset.refl gaps) (inductionHypothesis woven)
  | case2 remaining next same =>
      rwa [skipGaps, if_neg same] at woven

/-! ## The join -/

/-- The first of the incoming ids spell the bytes, apart from gaps, and each of them has some. -/
structure Respelled (decode : Decode) (gaps : List Bytes) (incoming : List Int) (count : Nat)
    (text : Bytes) : Prop where
  within : count ≤ incoming.length
  visible : ∀ id ∈ incoming.take count, decode id ≠ []
  woven : Woven gaps ((incoming.take count).map decode) text

theorem respelled_of_walk {total index j : Nat} {incoming : List Int} {remaining : Bytes}
    (walked : reseamJoin.walk decode gaps total incoming remaining index = .ok j) :
    ∃ count, j = index + count ∧ Respelled decode gaps incoming count remaining := by
  induction incoming generalizing remaining index with
  | nil => cases walked
  | cons id rest inductionHypothesis =>
      simp only [reseamJoin.walk] at walked
      split at walked
      next => cases walked
      next visible =>
        split at walked
        next => cases walked
        next =>
          split at walked
          next same =>
            have spelled : remaining = decode id ++ remaining.drop (decode id).length := by
              conv_lhs => rw [← List.take_append_drop (decode id).length remaining, same]
            split at walked
            next done =>
              obtain rfl := Except.ok.inj walked
              refine ⟨1, rfl, Nat.le_add_left .., ?_, ?_⟩
              · intro other member
                rw [List.take_succ_cons, List.take_zero, List.mem_singleton] at member
                rwa [member]
              · rw [spelled, List.take_succ_cons, List.take_zero]
                apply Woven.piece
                apply woven_of_skipGaps
                rw [done]
                exact .nil
            next =>
              obtain ⟨count, rfl, respelled⟩ := inductionHypothesis walked
              refine ⟨count + 1, Nat.add_right_comm .., Nat.succ_le_succ respelled.within, ?_, ?_⟩
              · intro other member
                rw [List.take_succ_cons] at member
                rcases List.mem_cons.mp member with rfl | later
                · exact visible
                · exact respelled.visible other later
              · rw [spelled, List.take_succ_cons, List.map_cons]
                exact .piece (woven_of_skipGaps respelled.woven)
          next => cases walked

theorem respelled_of_join {committedTail incoming : List Int} {j : Nat}
    (joined : reseamJoin decode committedTail incoming gaps = .ok j) :
    Respelled decode gaps incoming j (committedTail.flatMap decode) := by
  simp only [reseamJoin] at joined
  split at joined
  next => cases joined
  next =>
    split at joined
    next => cases joined
    next =>
      split at joined
      next done =>
        obtain rfl := Except.ok.inj joined
        refine ⟨Nat.zero_le _, fun _ member => absurd member List.not_mem_nil, ?_⟩
        apply woven_of_skipGaps
        rw [done]
        exact .nil
      next =>
        obtain ⟨count, rfl, respelled⟩ := respelled_of_walk joined
        rw [Nat.zero_add]
        exact ⟨respelled.within, respelled.visible, woven_of_skipGaps respelled.woven⟩

/-! ## The dressing -/

/-- Ids are skipped only where they spell exactly what is left of the dressing. -/
theorem dressing_of_go {ids : List Int} {remaining : Bytes} {index budget : Nat} :
    reseamSkipDressing.go decode ids remaining index budget = 0 ∨
      ∃ count, reseamSkipDressing.go decode ids remaining index budget = index + count ∧
        (ids.take count).flatMap decode = remaining := by
  induction ids generalizing remaining index budget with
  | nil =>
      left
      rw [reseamSkipDressing.go]
      exact nofun
  | cons id rest inductionHypothesis =>
      cases budget with
      | zero =>
          left
          rw [reseamSkipDressing.go]
          exact nofun
      | succ budget =>
          simp only [reseamSkipDressing.go]
          split
          next => exact Or.inl rfl
          next =>
            split
            next => exact Or.inl rfl
            next =>
              split
              next whole =>
                split
                next => exact Or.inl rfl
                next =>
                  refine Or.inr ⟨1, rfl, ?_⟩
                  rw [List.take_succ_cons, List.take_zero, List.flatMap_singleton, whole]
              next =>
                split
                next same =>
                  rcases @inductionHypothesis (remaining.drop (decode id).length) (index + 1) budget
                    with none | ⟨count, found, spelled⟩
                  · exact Or.inl none
                  · refine Or.inr ⟨count + 1, found.trans (Nat.add_right_comm ..), ?_⟩
                    rw [List.take_succ_cons, List.flatMap_cons, spelled, ← same,
                      List.length_take_of_le (by omega), List.take_append_drop]
                next => exact Or.inl rfl

/-- What is skipped in front is nothing or the dressing. -/
theorem skipped_dressing (committedTail : List Int) (dressing : Bytes) :
    (committedTail.take (reseamSkipDressing decode committedTail dressing)).flatMap decode = [] ∨
      (committedTail.take (reseamSkipDressing decode committedTail dressing)).flatMap decode =
        dressing := by
  unfold reseamSkipDressing
  split
  next => exact Or.inl rfl
  next =>
    rcases @dressing_of_go decode committedTail dressing 0 8 with none | ⟨count, found, spelled⟩
    · rw [none]
      exact Or.inl rfl
    · rw [found, Nat.zero_add]
      exact Or.inr spelled

/-! ## The prompt -/

/-- Behind a common prefix, an optional dressing and a join, the committed spelling says what the
incoming ids say. -/
theorem woven_of_join {committed tokens : List Int} {lcp j : Nat} {dressing : Bytes}
    (agree : committed.take lcp = tokens.take lcp)
    (joined : reseamJoin decode
      ((committed.drop lcp).drop (reseamSkipDressing decode (committed.drop lcp) dressing))
      (tokens.drop lcp) gaps = .ok j) :
    Woven (dressing :: gaps) (tokens.map decode)
      ((committed ++ tokens.drop (lcp + j)).flatMap decode) := by
  set skip := reseamSkipDressing decode (committed.drop lcp) dressing with skip_eq
  have listed : gaps ⊆ dressing :: gaps := List.subset_cons_self ..
  have common : Woven (dressing :: gaps) ((tokens.take lcp).map decode)
      ((committed.take lcp).flatMap decode) := by
    rw [agree]
    exact Woven.plain _
  have dressed : Woven (dressing :: gaps) [] (((committed.drop lcp).take skip).flatMap decode) := by
    rcases @skipped_dressing decode (committed.drop lcp) dressing with none | whole
    · rw [skip_eq, none]
      exact .nil
    · rw [skip_eq, whole]
      have put := Woven.extra (List.mem_cons_self : dressing ∈ dressing :: gaps) .nil
      rwa [List.append_nil] at put
  have middle := (respelled_of_join joined).woven.mono listed
  have rest : Woven (dressing :: gaps) ((tokens.drop (lcp + j)).map decode)
      ((tokens.drop (lcp + j)).flatMap decode) := Woven.plain _
  have pieces : (tokens.take lcp).map decode ++ ([] ++ (((tokens.drop lcp).take j).map decode ++
      (tokens.drop (lcp + j)).map decode)) = tokens.map decode := by
    rw [List.nil_append, ← List.map_append, ← List.map_append, ← List.drop_drop,
      List.take_append_drop, List.take_append_drop]
  have text : (committed.take lcp).flatMap decode ++
      (((committed.drop lcp).take skip).flatMap decode ++
        (((committed.drop lcp).drop skip).flatMap decode ++
          (tokens.drop (lcp + j)).flatMap decode)) =
      (committed ++ tokens.drop (lcp + j)).flatMap decode := by
    rw [← List.append_assoc (((committed.drop lcp).take skip).flatMap decode),
      ← List.flatMap_append, List.take_append_drop, ← List.append_assoc, ← List.flatMap_append,
      List.take_append_drop, List.flatMap_append]
  rw [← pieces, ← text]
  exact common.append (dressed.append (middle.append rest))

/-- A join only re-spells: each id it counts has bytes, what is skipped in front is nothing or the
dressing, the committed bytes behind it are those of the counted ids with gaps put between them, and
the rebuilt prompt says the incoming text with gaps and the dressing put between tokens. -/
theorem reseamJoin_respells (decode : Decode) (committed tokens : List Int) (lcp j : Nat)
    (gaps : List Bytes) (dressing : Bytes) (agree : committed.take lcp = tokens.take lcp)
    (joined : reseamJoin decode
      ((committed.drop lcp).drop (reseamSkipDressing decode (committed.drop lcp) dressing))
      (tokens.drop lcp) gaps = .ok j) :
    let skip := reseamSkipDressing decode (committed.drop lcp) dressing
    j ≤ (tokens.drop lcp).length ∧
      (∀ id ∈ (tokens.drop lcp).take j, decode id ≠ []) ∧
      (((committed.drop lcp).take skip).flatMap decode = [] ∨
        ((committed.drop lcp).take skip).flatMap decode = dressing) ∧
      Woven gaps (((tokens.drop lcp).take j).map decode)
        (((committed.drop lcp).drop skip).flatMap decode) ∧
      Woven (dressing :: gaps) (tokens.map decode)
        ((committed ++ tokens.drop (lcp + j)).flatMap decode) := by
  have respelled := respelled_of_join joined
  exact ⟨respelled.within, respelled.visible, skipped_dressing _ dressing, respelled.woven,
    woven_of_join agree joined⟩

/-- Id 1 is a dressing and id 3 a gap; the others spell text. -/
def seamSpelling : Decode := fun id =>
  ([[1], [9], [2, 3], [8], [4], [2], [3], [4]] : List Bytes).getD id.toNat []

/-- The dressing is skipped, the gap put behind the second token. -/
theorem reseamJoin_respells_gap :
    reseamJoin seamSpelling [2, 3, 4] [5, 6, 7, 0] [[8]] = .ok 3 ∧
      Woven [[9], [8]] ([0, 5, 6, 7, 0].map seamSpelling)
        (([0, 1, 2, 3, 4] ++ [0]).flatMap seamSpelling) := by
  have joined : reseamJoin seamSpelling [2, 3, 4] [5, 6, 7, 0] [[8]] = .ok 3 := by
    simp [reseamJoin, reseamJoin.walk, skipGaps, dropGaps, seamSpelling]
  have skipped : reseamSkipDressing seamSpelling [1, 2, 3, 4] [9] = 1 := by decide
  refine ⟨joined, ?_⟩
  apply (reseamJoin_respells seamSpelling [0, 1, 2, 3, 4] [0, 5, 6, 7, 0] 1 3 [[8]] [9] rfl
    ?_).2.2.2.2
  rw [List.drop_succ_cons, List.drop_zero, skipped]
  exact joined

/-- The prompt that a turn goes on with says what the incoming prompt says, with the gaps and the
dressing of the daemon put between tokens. -/
theorem matchCommitted_woven (reseam : Bool) (decode : Decode) (committed tokens : List Int) :
    Woven (reseamDressing :: reseamGaps) (tokens.map decode)
      ((matchCommitted reseam decode committed tokens).tokens.flatMap decode) := by
  have asSpelled : Woven (reseamDressing :: reseamGaps) (tokens.map decode)
      (tokens.flatMap decode) := Woven.plain _
  unfold matchCommitted
  simp only
  split
  next =>
    split
    next j joined =>
      -- Without the seam the match is the common prefix itself.
      have prefixes := (matchCommitted_spec false decode committed tokens).2.2.1
      simp only [matchCommitted, Bool.false_eq_true, and_false, if_false] at prefixes
      exact woven_of_join prefixes.symm joined
    next => exact asSpelled
  next => exact asSpelled

end KairosEngine.Daemon
