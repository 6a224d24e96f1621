import KairosEngine.Tokenizer.SpmFragment

/-!
# The SentencePiece heap computes the plain algorithm

A symbol keeps its offset for good, so the text a bigram was pushed for is still the text
of that many bytes from its left side on.  Two live sides of one bigram are neighbours;
when their lengths add up to the length of the bigram, it is the bigram of their text.
-/

namespace KairosEngine.Tokenizer

open KairosEngine.Library LinkedSpans MinHeap

/-! ## The invariant -/

section Invariant

variable (vocab : Vocab) (scores : Nat → Ieee.Number) (esc : Bytes) (ns : Nat)

/-- The heap holds the bigram of every pair of neighbours that is a token, and otherwise
bigrams of symbols that were neighbours when they were pushed. -/
structure SpmWaits (sym : Nat → Span) (live : List Nat) (heap : MinHeap SpmBigram) : Prop where
  ordered : Ordered SpmBigram.key heap.entries heap.size
  sound : ∀ bigram, heap.Holds bigram →
    (vocabLookup vocab ((esc.drop (sym bigram.left).off).take bigram.size)).map scores =
        some bigram.score ∧
      bigram.left < ns ∧ bigram.right < ns ∧
        (bigram.left ∈ live → bigram.right ∈ live →
          ∃ position, live[position]? = some bigram.left ∧
            live[position + 1]? = some bigram.right)
  complete : ∀ position left right, live[position]? = some left →
    live[position + 1]? = some right →
      ∀ bigram, spmBigram vocab scores esc sym (some left) (some right) = some bigram →
        heap.Holds bigram

end Invariant

variable {vocab : Vocab} {scores : Nat → Ieee.Number} {esc : Bytes} {ns slots : Nat}
variable {sym : Nat → Span} {live : List Nat} {heap : MinHeap SpmBigram}

theorem spmBigram_eq_some {left right : Nat} {bigram : SpmBigram} :
    spmBigram vocab scores esc sym (some left) (some right) = some bigram ↔
      bigram.left = left ∧ bigram.right = right ∧
        bigram.size = (sym left).n + (sym right).n ∧
          (vocabLookup vocab ((esc.drop (sym left).off).take bigram.size)).map scores =
            some bigram.score := by
  unfold spmBigram
  simp only [Option.bind_eq_bind, Option.bind_some, Option.bind_eq_some_iff, Option.pure_def,
    Option.some.injEq, Option.map_eq_some_iff]
  constructor
  · rintro ⟨id, found, rfl⟩
    exact ⟨rfl, rfl, rfl, id, found, rfl⟩
  · rintro ⟨rfl, rfl, size, id, found, score⟩
    refine ⟨id, size ▸ found, ?_⟩
    rw [score, ← size]

theorem spmBigram_sides {left right : Option Nat} {bigram : SpmBigram}
    (found : spmBigram vocab scores esc sym left right = some bigram) :
    left = some bigram.left ∧ right = some bigram.right := by
  cases left with
  | none => cases found
  | some left =>
      cases right with
      | none => cases found
      | some right =>
          obtain ⟨rfl, rfl, _⟩ := spmBigram_eq_some.mp found
          exact ⟨rfl, rfl⟩

/-- Neighbours rank as their bigram does. -/
theorem rankAt_spmTexts (list : Linked sym ns live) {position left right : Nat}
    (atLeft : live[position]? = some left) (atRight : live[position + 1]? = some right)
    (score : Ieee.Numberᵒᵈ) :
    GreedyMerge.rankAt (scoreRank vocab scores) (spelled esc sym live) position = some score ↔
      ∃ bigram, spmBigram vocab scores esc sym (some left) (some right) = some bigram ∧
        OrderDual.toDual bigram.score = score := by
  have leftText : (spelled esc sym live)[position]? = some (text esc (sym left)) := by
    rw [spelled_getElem?, atLeft, Option.map_some]
  have rightText : (spelled esc sym live)[position + 1]? = some (text esc (sym right)) := by
    rw [spelled_getElem?, atRight, Option.map_some]
  rw [GreedyMerge.rankAt_eq leftText rightText, scoreRank, list.append_text atLeft atRight]
  simp only [Option.map_eq_some_iff, spmBigram_eq_some]
  constructor
  · rintro ⟨id, found, rfl⟩
    exact ⟨⟨left, right, scores id, _⟩, ⟨rfl, rfl, rfl, id, found, rfl⟩, rfl⟩
  · rintro ⟨bigram, ⟨_, _, size, id, found, score⟩, rfl⟩
    exact ⟨id, size ▸ found, by rw [score]⟩

/-! ## A popped bigram -/

/-- A bigram whose lengths still add up is the bigram of two neighbours. -/
theorem spmNeighbours_of_current (list : Linked sym ns live)
    (waits : SpmWaits vocab scores esc ns sym live heap) {bigram : SpmBigram}
    (held : heap.Holds bigram) (current : spmStale sym bigram = false) :
    ∃ position, live[position]? = some bigram.left ∧ live[position + 1]? = some bigram.right ∧
      spmBigram vocab scores esc sym (some bigram.left) (some bigram.right) = some bigram := by
  obtain ⟨known, leftBelow, rightBelow, adjacent⟩ := waits.sound bigram held
  simp only [spmStale, Bool.or_eq_false_iff, decide_eq_false_iff_not, not_not] at current
  obtain ⟨⟨leftFull, rightFull⟩, size⟩ := current
  obtain ⟨position, atLeft, atRight⟩ :=
    adjacent (list.mem_of_alive leftBelow leftFull) (list.mem_of_alive rightBelow rightFull)
  exact ⟨position, atLeft, atRight, spmBigram_eq_some.mpr ⟨rfl, rfl, size.symm, known⟩⟩

/-- The bigram of two neighbours is not stale. -/
theorem spmCurrent_of_neighbours (list : Linked sym ns live) {position : Nat} {bigram : SpmBigram}
    (atLeft : live[position]? = some bigram.left)
    (atRight : live[position + 1]? = some bigram.right)
    (found : spmBigram vocab scores esc sym (some bigram.left) (some bigram.right) = some bigram) :
    spmStale sym bigram = false := by
  obtain ⟨_, _, size, _⟩ := spmBigram_eq_some.mp found
  have leftFull := list.alive bigram.left (List.mem_of_getElem? atLeft)
  have rightFull := list.alive bigram.right (List.mem_of_getElem? atRight)
  simp [spmStale, size, leftFull.ne', rightFull.ne']

theorem SpmBigram.key_le_iff {left right : SpmBigram} : left.key ≤ right.key ↔
    OrderDual.toDual left.score < OrderDual.toDual right.score ∨
      OrderDual.toDual left.score = OrderDual.toDual right.score ∧ left.left ≤ right.left :=
  Prod.Lex.toLex_le_toLex

/-- The top of the heap, when it is current, is the pair a rescan chooses. -/
theorem bestPair_of_spmCurrent (list : Linked sym ns live)
    (waits : SpmWaits vocab scores esc ns sym live heap) {position : Nat} {bigram : SpmBigram}
    (least : ∀ other, heap.Holds other → bigram.key ≤ other.key)
    (atLeft : live[position]? = some bigram.left)
    (atRight : live[position + 1]? = some bigram.right)
    (found : spmBigram vocab scores esc sym (some bigram.left) (some bigram.right) = some bigram) :
    GreedyMerge.bestPair (scoreRank vocab scores) (spelled esc sym live) =
      some (OrderDual.toDual bigram.score, position) := by
  apply GreedyMerge.bestPair_eq_some
  · exact (rankAt_spmTexts list atLeft atRight _).mpr ⟨bigram, found, rfl⟩
  · intro other value ranked
    obtain ⟨left, right, otherLeft, otherRight⟩ :=
      spelled_neighbours (GreedyMerge.rankAt_inside ranked)
    obtain ⟨rival, rivalFound, rfl⟩ := (rankAt_spmTexts list otherLeft otherRight value).mp ranked
    have rivalLeft := (spmBigram_eq_some.mp rivalFound).1
    have before := SpmBigram.key_le_iff.mp
      (least rival (waits.complete other left right otherLeft otherRight rival rivalFound))
    rcases before with lower | ⟨same, leftmost⟩
    · exact Or.inl lower
    · refine Or.inr ⟨same, ?_⟩
      by_contra behind
      have earlier := list.lt_of_lt otherLeft atLeft (not_le.mp behind)
      omega

/-- Dropping a stale bigram leaves the rest waiting. -/
theorem SpmWaits.skip (waits : SpmWaits vocab scores esc ns sym live heap)
    (nonempty : 0 < heap.size) (list : Linked sym ns live)
    (stale : spmStale sym (heap.pop SpmBigram.key).1 = true) :
    SpmWaits vocab scores esc ns sym live (heap.pop SpmBigram.key).2 := by
  refine ⟨pop_ordered waits.ordered, ?_, ?_⟩
  · intro bigram held
    exact waits.sound bigram ((pop_holds nonempty).1 held)
  · intro position left right atLeft atRight bigram found
    have held := waits.complete position left right atLeft atRight bigram found
    rcases (@pop_holds _ _ _ SpmBigram.key heap nonempty bigram).2 held with top | kept
    · obtain ⟨rfl, rfl, _⟩ := spmBigram_eq_some.mp found
      have current := spmCurrent_of_neighbours list atLeft atRight found
      rw [top, stale] at current
      cases current
    · exact kept

/-! ## Pushes -/

/-- What a push leaves: the old entries, the bigram of the two symbols if there is one. -/
structure SpmPushed (vocab : Vocab) (scores : Nat → Ieee.Number) (esc : Bytes) (sym : Nat → Span)
    (left right : Option Nat) (heap pushed : MinHeap SpmBigram) : Prop where
  size : pushed.size ≤ heap.size + 1
  ordered : Ordered SpmBigram.key heap.entries heap.size →
    Ordered SpmBigram.key pushed.entries pushed.size
  holds : ∀ bigram, pushed.Holds bigram ↔
    spmBigram vocab scores esc sym left right = some bigram ∨ heap.Holds bigram

variable (vocab scores esc sym) in
/-- There is room for one push below the number of slots. -/
theorem spmTry_pushed (left right : Option Nat) (room : heap.size < slots) :
    ∃ pushed, spmTry vocab scores esc slots sym left right heap = some pushed ∧
      SpmPushed vocab scores esc sym left right heap pushed := by
  unfold spmTry
  cases found : spmBigram vocab scores esc sym left right with
  | none =>
      refine ⟨heap, rfl, Nat.le_succ heap.size, id, fun bigram => ?_⟩
      simp [found]
  | some bigram =>
      refine ⟨heap.push SpmBigram.key bigram, if_pos room, le_rfl, push_ordered, fun other => ?_⟩
      rw [push_holds, found, Option.some.injEq, eq_comm]

/-- What `SpmWaits` asks of a bigram holds of a pair of neighbours. -/
theorem spmSound_neighbours (list : Linked sym ns live) {left right : Nat}
    (adjacent : Adjacent live left right) {bigram : SpmBigram}
    (found : spmBigram vocab scores esc sym (some left) (some right) = some bigram) :
    (vocabLookup vocab ((esc.drop (sym bigram.left).off).take bigram.size)).map scores =
        some bigram.score ∧
      bigram.left < ns ∧ bigram.right < ns ∧
        (bigram.left ∈ live → bigram.right ∈ live →
          ∃ position, live[position]? = some bigram.left ∧
            live[position + 1]? = some bigram.right) := by
  obtain ⟨rfl, rfl, _, known⟩ := spmBigram_eq_some.mp found
  obtain ⟨position, atLeft, atRight⟩ := adjacent
  exact ⟨known, list.below _ (List.mem_of_getElem? atLeft),
    list.below _ (List.mem_of_getElem? atRight), fun _ _ => ⟨position, atLeft, atRight⟩⟩

section Merge

variable {position : Nat} {bigram : SpmBigram}

/-- The two pairs around the joined symbol are the only new candidates. -/
theorem SpmWaits.merge (waits : SpmWaits vocab scores esc ns sym live heap)
    (nonempty : 0 < heap.size) (popped : (heap.pop SpmBigram.key).1 = bigram)
    (list : Linked sym ns live) (atLeft : live[position]? = some bigram.left)
    (atRight : live[position + 1]? = some bigram.right)
    {before after : MinHeap SpmBigram}
    (first : SpmPushed vocab scores esc (absorb sym bigram.left bigram.right)
      (absorb sym bigram.left bigram.right bigram.left).prev (some bigram.left)
      (heap.pop SpmBigram.key).2 before)
    (second : SpmPushed vocab scores esc (absorb sym bigram.left bigram.right) (some bigram.left)
      (absorb sym bigram.left bigram.right bigram.left).next before after) :
    SpmWaits vocab scores esc ns (absorb sym bigram.left bigram.right)
      (live.eraseIdx (position + 1)) after := by
  have merged := list.merged atLeft atRight
  have distinct := list.distinct atLeft atRight
  have joinedLive : bigram.left ∈ live.eraseIdx (position + 1) :=
    (list.mem_unlinked atLeft atRight).mpr ⟨List.mem_of_getElem? atLeft, distinct⟩
  refine ⟨second.ordered (first.ordered (pop_ordered waits.ordered)), ?_, ?_⟩
  · intro candidate held
    rw [second.holds, first.holds] at held
    rcases held with behind | front | kept
    · have next := (spmBigram_sides behind).2
      rw [next] at behind
      exact spmSound_neighbours merged ((merged.adjacent_iff_next joinedLive).mpr next) behind
    · have prev := (spmBigram_sides front).1
      rw [prev] at front
      exact spmSound_neighbours merged ((merged.adjacent_iff_prev joinedLive).mpr prev) front
    · obtain ⟨known, leftBelow, rightBelow, adjacent⟩ :=
        waits.sound candidate ((pop_holds nonempty).1 kept)
      refine ⟨?_, leftBelow, rightBelow, ?_⟩
      · rw [absorb_apply distinct]
        exact known
      · intro leftMember rightMember
        obtain ⟨leftLive, leftStays⟩ := (list.mem_unlinked atLeft atRight).mp leftMember
        obtain ⟨rightLive, rightStays⟩ := (list.mem_unlinked atLeft atRight).mp rightMember
        exact Adjacent.unlinked (adjacent leftLive rightLive) atRight leftStays rightStays
  · intro place left right here there candidate pair
    have adjacent : Adjacent (live.eraseIdx (position + 1)) left right := ⟨place, here, there⟩
    rw [second.holds, first.holds]
    rcases list.adjacent_unlinked atLeft atRight adjacent with
      rfl | rfl | ⟨leftOther, leftStays, rightOther, rightStays, place', before', behind'⟩
    · left
      rw [(merged.adjacent_iff_next joinedLive).mp adjacent, pair]
    · right
      left
      rw [(merged.adjacent_iff_prev joinedLive).mp adjacent, pair]
    · right
      right
      have old : spmBigram vocab scores esc sym (some left) (some right) = some candidate := by
        obtain ⟨leftOff, leftN⟩ := list.absorb_other atLeft atRight leftOther leftStays
        obtain ⟨_, rightN⟩ := list.absorb_other atLeft atRight rightOther rightStays
        rw [spmBigram_eq_some, leftOff, leftN, rightN] at pair
        exact spmBigram_eq_some.mpr pair
      have held := waits.complete place' left right before' behind' candidate old
      rcases (@pop_holds _ _ _ SpmBigram.key heap nonempty candidate).2 held with top | kept
      · rw [popped] at top
        rw [top] at old
        exact absurd (spmBigram_eq_some.mp old).1.symm leftOther
      · exact kept

/-- Below the number of slots both pushes have room. -/
theorem SpmWaits.push_merged (waits : SpmWaits vocab scores esc ns sym live heap)
    (nonempty : 0 < heap.size) (list : Linked sym ns live)
    (popped : (heap.pop SpmBigram.key).1 = bigram) (atLeft : live[position]? = some bigram.left)
    (atRight : live[position + 1]? = some bigram.right) (room : heap.size < slots) :
    ∃ before after,
      spmTry vocab scores esc slots (absorb sym bigram.left bigram.right)
        (absorb sym bigram.left bigram.right bigram.left).prev (some bigram.left)
        (heap.pop SpmBigram.key).2 = some before ∧
      spmTry vocab scores esc slots (absorb sym bigram.left bigram.right) (some bigram.left)
        (absorb sym bigram.left bigram.right bigram.left).next before = some after ∧
      SpmWaits vocab scores esc ns (absorb sym bigram.left bigram.right)
        (live.eraseIdx (position + 1)) after ∧
      after.size ≤ heap.size + 1 := by
  have smaller : (heap.pop SpmBigram.key).2.size = heap.size - 1 := rfl
  obtain ⟨before, pushedBefore, first⟩ := spmTry_pushed vocab scores esc
    (absorb sym bigram.left bigram.right)
    (absorb sym bigram.left bigram.right bigram.left).prev (some bigram.left)
    (by omega : (heap.pop SpmBigram.key).2.size < slots)
  have grown := first.size
  obtain ⟨after, pushedAfter, second⟩ := spmTry_pushed vocab scores esc
    (absorb sym bigram.left bigram.right) (some bigram.left)
    (absorb sym bigram.left bigram.right bigram.left).next (by omega : before.size < slots)
  have last := second.size
  exact ⟨before, after, pushedBefore, pushedAfter,
    waits.merge nonempty popped list atLeft atRight first second, by omega⟩

end Merge

/-! ## The whole loop -/

/-- One pop has room for its pushes, and keeps the invariant and the symbols the plain
algorithm ends with. -/
theorem spmPop_step {state : SpmState} (list : Linked state.sym ns live)
    (waits : SpmWaits vocab scores esc ns state.sym live state.heap)
    (nonempty : 0 < state.heap.size) (room : state.heap.size + 2 * live.length ≤ slots) :
    ∃ state' live', spmPop vocab scores esc slots state = some state' ∧
      Linked state'.sym ns live' ∧ SpmWaits vocab scores esc ns state'.sym live' state'.heap ∧
      GreedyMerge.mergeAll (· ++ ·) (scoreRank vocab scores) (spelled esc state'.sym live') =
        GreedyMerge.mergeAll (· ++ ·) (scoreRank vocab scores) (spelled esc state.sym live) ∧
      live'[0]? = live[0]? ∧
      state'.heap.size + 2 * live'.length < state.heap.size + 2 * live.length := by
  unfold spmPop
  simp only
  cases stale : spmStale state.sym (state.heap.pop SpmBigram.key).1 with
  | true =>
      have smaller : (state.heap.pop SpmBigram.key).2.size = state.heap.size - 1 := rfl
      rw [if_pos rfl]
      refine ⟨_, live, rfl, list, waits.skip nonempty list stale, rfl, rfl, ?_⟩
      simp only
      omega
  | false =>
      rw [if_neg Bool.false_ne_true]
      obtain ⟨position, atLeft, atRight, found⟩ :=
        spmNeighbours_of_current list waits (pop_holds_root nonempty) stale
      have best := bestPair_of_spmCurrent list waits
        (fun other held => pop_le waits.ordered held) atLeft atRight found
      have inside : position + 1 < live.length := (List.getElem?_eq_some_iff.mp atRight).1
      obtain ⟨before, after, first, second, kept, size⟩ :=
        waits.push_merged nonempty list rfl atLeft atRight (by omega : state.heap.size < slots)
      rw [first, Option.bind_eq_bind, Option.bind_some, second, Option.bind_some]
      refine ⟨_, live.eraseIdx (position + 1), rfl, list.merged atLeft atRight, kept, ?_, ?_, ?_⟩
      · rw [list.absorb_spelled atLeft atRight, GreedyMerge.mergeAll_of_best _ best]
      · rw [getElem?_unlinked, if_pos (Nat.zero_le position)]
      · simp only
        rw [List.length_eraseIdx_of_lt inside]
        omega

theorem spmLoop_spelled (fuel : Nat) {state : SpmState} (list : Linked state.sym ns live)
    (waits : SpmWaits vocab scores esc ns state.sym live state.heap)
    (enough : state.heap.size + 2 * live.length ≤ fuel)
    (room : state.heap.size + 2 * live.length ≤ slots) :
    ∃ final live', spmLoop vocab scores esc slots fuel state = some final ∧
      Linked final.sym ns live' ∧
      spelled esc final.sym live' =
        GreedyMerge.mergeAll (· ++ ·) (scoreRank vocab scores) (spelled esc state.sym live) ∧
      live'[0]? = live[0]? := by
  induction fuel generalizing state live with
  | zero =>
      have empty : live = [] := List.length_eq_zero_iff.mp (by omega)
      subst empty
      refine ⟨state, [], ?_, list, ?_, rfl⟩
      · rw [spmLoop, if_pos (by omega)]
      · exact (GreedyMerge.mergeAll_of_unranked _ fun position => rfl).symm
  | succ fuel inductionHypothesis =>
      rw [spmLoop]
      by_cases empty : state.heap.size = 0
      · rw [if_pos empty]
        refine ⟨state, live, rfl, list, ?_, rfl⟩
        rw [GreedyMerge.mergeAll_of_unranked]
        intro position
        by_contra ranked
        obtain ⟨rank, known⟩ := Option.ne_none_iff_exists'.mp ranked
        obtain ⟨left, right, atLeft, atRight⟩ :=
          spelled_neighbours (GreedyMerge.rankAt_inside known)
        obtain ⟨bigram, found, _⟩ := (rankAt_spmTexts list atLeft atRight rank).mp known
        obtain ⟨index, below, _⟩ := waits.complete position left right atLeft atRight bigram found
        omega
      · rw [if_neg empty]
        obtain ⟨state', live', popped, list', waits', same, first, less⟩ :=
          spmPop_step list waits (Nat.pos_of_ne_zero empty) room
        obtain ⟨final, live'', looped, finalList, finalTexts, finalFirst⟩ :=
          inductionHypothesis list' waits' (by omega) (by omega)
        refine ⟨final, live'', ?_, finalList, finalTexts.trans same, finalFirst.trans first⟩
        simp only [popped, Option.bind_eq_bind, Option.bind_some, looped]

/-- The first candidates fit, and every pair of first symbols that is a token is among them. -/
theorem spmStart_spec (sym : Nat → Span) (ns : Nat) (room : ns ≤ slots) :
    ∃ heap, spmStart vocab scores esc slots sym ns = some heap ∧
      Ordered SpmBigram.key heap.entries heap.size ∧ heap.size ≤ ns - 1 ∧
      ∀ bigram, heap.Holds bigram ↔ ∃ index < ns - 1,
        spmBigram vocab scores esc sym (some index) (some (index + 1)) = some bigram := by
  unfold spmStart
  have few : ns - 1 ≤ slots := by omega
  revert few
  induction ns - 1 with
  | zero =>
      intro few
      refine ⟨_, rfl, fun _ _ below => absurd below (Nat.not_lt_zero _), le_rfl, fun bigram => ?_⟩
      constructor
      · rintro ⟨index, below, _⟩
        exact absurd below (Nat.not_lt_zero index)
      · rintro ⟨index, below, _⟩
        exact absurd below (Nat.not_lt_zero index)
  | succ count inductionHypothesis =>
      intro few
      obtain ⟨heap, started, ordered, size, holds⟩ := inductionHypothesis (by omega)
      obtain ⟨pushed, tried, spec⟩ := spmTry_pushed vocab scores esc sym
        (some count) (some (count + 1)) (by omega : heap.size < slots)
      have grown := spec.size
      refine ⟨pushed, ?_, spec.ordered ordered, by omega, ?_⟩
      · rw [List.range_succ, List.foldlM_append, started, Option.bind_eq_bind, Option.bind_some,
          List.foldlM_cons, tried]
        rfl
      · intro bigram
        rw [spec.holds, holds]
        constructor
        · rintro (found | ⟨index, below, found⟩)
          · exact ⟨count, Nat.lt_succ_self count, found⟩
          · exact ⟨index, Nat.lt_succ_of_lt below, found⟩
        · rintro ⟨index, below, found⟩
          rcases Nat.lt_succ_iff_lt_or_eq.mp below with earlier | rfl
          · exact Or.inr ⟨index, earlier, found⟩
          · exact Or.inl found

theorem spmStart_waits (list : Linked sym ns (List.range ns)) (room : ns ≤ slots) :
    ∃ heap, spmStart vocab scores esc slots sym ns = some heap ∧ heap.size ≤ ns - 1 ∧
      SpmWaits vocab scores esc ns sym (List.range ns) heap := by
  obtain ⟨heap, started, ordered, size, holds⟩ :=
    @spmStart_spec vocab scores esc slots sym ns room
  refine ⟨heap, started, size, ordered, ?_, ?_⟩
  · intro bigram held
    obtain ⟨index, below, found⟩ := (holds bigram).mp held
    have adjacent : Adjacent (List.range ns) index (index + 1) :=
      ⟨index, List.getElem?_range (by omega), List.getElem?_range (by omega)⟩
    exact spmSound_neighbours list adjacent found
  · intro position left right atLeft atRight bigram found
    obtain ⟨_, rfl⟩ := range_getElem?.mp atLeft
    obtain ⟨below, rfl⟩ := range_getElem?.mp atRight
    exact (holds bigram).mpr ⟨left, by omega, found⟩

theorem pieces_escapeSpaces_pos {s : Bytes} (nonempty : s ≠ []) :
    0 < (LinkedSpans.pieces utf8Len (escapeSpaces s)).length := by
  obtain ⟨byte, rest, rfl⟩ := List.exists_cons_of_ne_nil nonempty
  rw [escapeSpaces, List.flatMap_cons]
  split <;> rw [List.cons_append, LinkedSpans.pieces] <;> exact Nat.succ_pos _

end KairosEngine.Tokenizer
