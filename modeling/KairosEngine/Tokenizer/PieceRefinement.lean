import KairosEngine.Library.LinkedSpans
import KairosEngine.Tokenizer.Gemma4Piece

/-!
# The heap computes the plain algorithm

The live symbols, in order, spell the symbols of the plain algorithm.  Every ranked pair
of neighbours waits in the heap, and a bigram that passes the staleness test is a pair of
neighbours, so the top of the heap is the pair a rescan would choose.
-/

namespace KairosEngine.Tokenizer

open KairosEngine.Library MinHeap

theorem Bigram.key_le_iff {left right : Bigram} : left.key ≤ right.key ↔
    left.rank < right.rank ∨ left.rank = right.rank ∧ left.left ≤ right.left :=
  Prod.Lex.toLex_le_toLex

/-! ## The invariant -/

section Invariant

variable (vocab : Vocab) (merges : List Bytes) (tables : MergeTables) (piece : Bytes) (ns : Nat)

/-- The symbols at these indices form the linked list and spell the piece. -/
structure Spells (sym : Nat → Sym) (live : List Nat) : Prop where
  sorted : live.Pairwise (· < ·)
  below : ∀ index ∈ live, index < ns
  alive : ∀ index ∈ live, 0 < (sym index).n
  dead : ∀ index < ns, index ∉ live → (sym index).n = 0
  linked : ∀ position index, live[position]? = some index →
    (sym index).prev = (if position = 0 then none else live[position - 1]?) ∧
      (sym index).next = live[position + 1]?
  joined : ∀ position index next, live[position]? = some index → live[position + 1]? = some next →
    (sym next).off = (sym index).off + (sym index).n
  named : ∀ index ∈ live, (sym index).id = vocabLookup vocab ((sym index).text piece)

/-- The heap holds the bigram of every ranked pair of neighbours, and otherwise bigrams
that were neighbours when they were pushed. -/
structure Waits (sym : Nat → Sym) (live : List Nat) (heap : MinHeap Bigram) : Prop where
  ordered : Ordered Bigram.key heap.entries heap.size
  sound : ∀ bigram, heap.Holds bigram →
    tables.pairRank bigram.lid bigram.rid = some bigram.rank ∧
      bigram.left < ns ∧ bigram.right < ns ∧
        (bigram.left ∈ live → bigram.right ∈ live →
          ∃ position, live[position]? = some bigram.left ∧
            live[position + 1]? = some bigram.right)
  complete : ∀ position left right, live[position]? = some left →
    live[position + 1]? = some right →
      ∀ bigram, bigramOf tables sym (some left) (some right) = some bigram → heap.Holds bigram

def texts (sym : Nat → Sym) (live : List Nat) : List Bytes :=
  live.map fun index => (sym index).text piece

end Invariant

variable {vocab : Vocab} {merges : List Bytes} {tables : MergeTables} {piece : Bytes} {ns : Nat}
variable {sym : Nat → Sym} {live : List Nat} {heap : MinHeap Bigram}

theorem bigramOf_eq_some {left right : Nat} {bigram : Bigram} :
    bigramOf tables sym (some left) (some right) = some bigram ↔
      bigram.left = left ∧ bigram.right = right ∧ (sym left).id = some bigram.lid ∧
        (sym right).id = some bigram.rid ∧
          tables.pairRank bigram.lid bigram.rid = some bigram.rank := by
  unfold bigramOf
  simp only [Option.bind_eq_bind, Option.bind_some, Option.bind_eq_some_iff, Option.pure_def,
    Option.some.injEq]
  constructor
  · rintro ⟨lid, leftId, rid, rightId, rank, ranked, rfl⟩
    exact ⟨rfl, rfl, leftId, rightId, ranked⟩
  · rintro ⟨rfl, rfl, leftId, rightId, ranked⟩
    exact ⟨_, leftId, _, rightId, _, ranked, rfl⟩

theorem bigramOf_sides {left right : Option Nat} {bigram : Bigram}
    (found : bigramOf tables sym left right = some bigram) :
    left = some bigram.left ∧ right = some bigram.right := by
  cases left with
  | none => cases found
  | some left =>
      cases right with
      | none => cases found
      | some right =>
          obtain ⟨rfl, rfl, _⟩ := bigramOf_eq_some.mp found
          exact ⟨rfl, rfl⟩

/-! ## The symbols as spans -/

/-- A symbol without its id. -/
def Sym.toSpan (sym : Sym) : Span := ⟨sym.prev, sym.next, sym.off, sym.n⟩

def symSpans (sym : Nat → Sym) (index : Nat) : Span := (sym index).toSpan

theorem symSpans_update (sym : Nat → Sym) (index : Nat) (entry : Sym) :
    symSpans (Function.update sym index entry) =
      Function.update (symSpans sym) index entry.toSpan :=
  Function.comp_update Sym.toSpan sym index entry

theorem texts_eq_spelled : texts piece sym live = LinkedSpans.spelled piece (symSpans sym) live :=
  rfl

/-- The spelling symbols are the linked spans with a name for each text. -/
theorem Spells.list (spells : Spells vocab piece ns sym live) :
    LinkedSpans.Linked (symSpans sym) ns live :=
  ⟨spells.sorted, spells.below, spells.alive, spells.dead, spells.linked, spells.joined⟩

theorem Spells.of_list (list : LinkedSpans.Linked (symSpans sym) ns live)
    (named : ∀ index ∈ live, (sym index).id = vocabLookup vocab ((sym index).text piece)) :
    Spells vocab piece ns sym live :=
  ⟨list.sorted, list.below, list.alive, list.dead, list.linked, list.joined, named⟩

/-- Neighbours rank as their texts do. -/
theorem Spells.rankAt_texts (spells : Spells vocab piece ns sym live)
    (accepted : Accepted vocab merges tables) {position left right : Nat}
    (atLeft : live[position]? = some left) (atRight : live[position + 1]? = some right)
    (rank : Nat) :
    rankAt (mergeRank merges) (texts piece sym live) position = some rank ↔
      ∃ bigram, bigramOf tables sym (some left) (some right) = some bigram ∧
        bigram.rank = rank := by
  have leftNamed := spells.named left (List.mem_of_getElem? atLeft)
  have rightNamed := spells.named right (List.mem_of_getElem? atRight)
  have ranks : rankAt (mergeRank merges) (texts piece sym live) position =
      mergeRank merges ((sym left).text piece) ((sym right).text piece) := by
    simp only [rankAt, texts, List.getElem?_map, atLeft, atRight, Option.map_some,
      Option.bind_eq_bind, Option.bind_some]
  rw [ranks]
  constructor
  · intro ranked
    obtain ⟨leftToken, rightToken, _⟩ := accepted.resolved ranked
    obtain ⟨lid, leftId⟩ := Option.isSome_iff_exists.mp leftToken
    obtain ⟨rid, rightId⟩ := Option.isSome_iff_exists.mp rightToken
    refine ⟨⟨rank, left, right, lid, rid⟩, bigramOf_eq_some.mpr ⟨rfl, rfl, ?_, ?_, ?_⟩, rfl⟩
    · rw [leftNamed, leftId]
    · rw [rightNamed, rightId]
    · rw [accepted.pairRank_eq leftId rightId, ranked]
  · rintro ⟨bigram, found, rfl⟩
    obtain ⟨_, _, leftId, rightId, ranked⟩ := bigramOf_eq_some.mp found
    rw [leftNamed] at leftId
    rw [rightNamed] at rightId
    rw [← accepted.pairRank_eq leftId rightId, ranked]

theorem texts_neighbours {position rank : Nat}
    (ranked : rankAt (mergeRank merges) (texts piece sym live) position = some rank) :
    ∃ left right, live[position]? = some left ∧ live[position + 1]? = some right := by
  rw [rankAt_eq, texts_eq_spelled] at ranked
  exact LinkedSpans.spelled_neighbours (GreedyMerge.rankAt_inside ranked)

/-! ## A popped bigram -/

/-- A bigram that is not outdated is the bigram of two neighbours. -/
theorem neighbours_of_current (spells : Spells vocab piece ns sym live)
    (waits : Waits tables ns sym live heap) {bigram : Bigram} (held : heap.Holds bigram)
    (current : outdated sym bigram = false) :
    ∃ position, live[position]? = some bigram.left ∧ live[position + 1]? = some bigram.right ∧
      bigramOf tables sym (some bigram.left) (some bigram.right) = some bigram := by
  obtain ⟨ranked, leftBelow, rightBelow, adjacent⟩ := waits.sound bigram held
  simp only [outdated, Bool.or_eq_false_iff, decide_eq_false_iff_not, not_not] at current
  obtain ⟨⟨⟨leftFull, rightFull⟩, leftId⟩, rightId⟩ := current
  have leftLive := spells.list.mem_of_alive leftBelow leftFull
  have rightLive := spells.list.mem_of_alive rightBelow rightFull
  obtain ⟨position, atLeft, atRight⟩ := adjacent leftLive rightLive
  exact ⟨position, atLeft, atRight, bigramOf_eq_some.mpr ⟨rfl, rfl, leftId, rightId, ranked⟩⟩

/-- The bigram of two neighbours is not outdated. -/
theorem current_of_neighbours (spells : Spells vocab piece ns sym live) {position : Nat}
    {bigram : Bigram} (atLeft : live[position]? = some bigram.left)
    (atRight : live[position + 1]? = some bigram.right)
    (found : bigramOf tables sym (some bigram.left) (some bigram.right) = some bigram) :
    outdated sym bigram = false := by
  obtain ⟨_, _, leftId, rightId, _⟩ := bigramOf_eq_some.mp found
  have leftFull := spells.alive bigram.left (List.mem_of_getElem? atLeft)
  have rightFull := spells.alive bigram.right (List.mem_of_getElem? atRight)
  simp [outdated, leftId, rightId, leftFull.ne', rightFull.ne']

/-- The top of the heap, when it is current, is the pair a rescan chooses. -/
theorem bestPair_of_current (accepted : Accepted vocab merges tables)
    (spells : Spells vocab piece ns sym live) (waits : Waits tables ns sym live heap)
    {position : Nat} {bigram : Bigram} (least : ∀ other, heap.Holds other → bigram.key ≤ other.key)
    (atLeft : live[position]? = some bigram.left)
    (atRight : live[position + 1]? = some bigram.right)
    (found : bigramOf tables sym (some bigram.left) (some bigram.right) = some bigram) :
    bestPair (mergeRank merges) (texts piece sym live) = some (bigram.rank, position) := by
  apply bestPair_eq_some
  · exact (spells.rankAt_texts accepted atLeft atRight bigram.rank).mpr ⟨bigram, found, rfl⟩
  · intro other value ranked
    obtain ⟨left, right, otherLeft, otherRight⟩ := texts_neighbours ranked
    obtain ⟨rival, rivalFound, rfl⟩ :=
      (spells.rankAt_texts accepted otherLeft otherRight value).mp ranked
    have rivalLeft := (bigramOf_eq_some.mp rivalFound).1
    have before := Bigram.key_le_iff.mp
      (least rival (waits.complete other left right otherLeft otherRight rival rivalFound))
    rcases before with lower | ⟨same, leftmost⟩
    · exact Or.inl lower
    · refine Or.inr ⟨same, ?_⟩
      by_contra behind
      have earlier := spells.list.lt_of_lt otherLeft atLeft (not_le.mp behind)
      omega

/-- Dropping a bigram that is not current leaves the rest waiting. -/
theorem Waits.skip (waits : Waits tables ns sym live heap) (nonempty : 0 < heap.size)
    (spells : Spells vocab piece ns sym live)
    (stale : outdated sym (heap.pop Bigram.key).1 = true) :
    Waits tables ns sym live (heap.pop Bigram.key).2 := by
  refine ⟨pop_ordered waits.ordered, ?_, ?_⟩
  · intro bigram held
    exact waits.sound bigram ((pop_holds nonempty).1 held)
  · intro position left right atLeft atRight bigram found
    have held := waits.complete position left right atLeft atRight bigram found
    rcases (@pop_holds _ _ _ Bigram.key heap nonempty bigram).2 held with top | kept
    · have ends := bigramOf_eq_some.mp found
      obtain ⟨rfl, rfl, _⟩ := ends
      have current := current_of_neighbours spells atLeft atRight found
      rw [top, stale] at current
      cases current
    · exact kept

/-! ## A merge -/

/-- A merge of symbols is one of spans. -/
theorem mergeSyms_spans (sym : Nat → Sym) (bigram : Bigram) :
    symSpans (mergeSyms tables sym bigram) =
      LinkedSpans.absorb (symSpans sym) bigram.left bigram.right := by
  have joined : ∀ left right : Sym,
      left.toSpan =
          { symSpans sym bigram.left with
            n := (sym bigram.left).n + (sym bigram.right).n
            next := (sym bigram.right).next } →
        right.toSpan = { symSpans sym bigram.right with n := 0 } →
          symSpans (Function.update (Function.update sym bigram.left left) bigram.right right) =
            LinkedSpans.takeOver (symSpans sym) bigram.left bigram.right := by
    intro left right leftSpan rightSpan
    rw [symSpans_update, symSpans_update, leftSpan, rightSpan]
    rfl
  have relinked : ∀ (before : Nat → Sym) (next : Nat),
      symSpans (Function.update before next { before next with prev := some bigram.left }) =
        Function.update (symSpans before) next
          { symSpans before next with prev := some bigram.left } :=
    fun before next => symSpans_update before next _
  have behind : (symSpans sym bigram.right).next = (sym bigram.right).next := rfl
  unfold mergeSyms LinkedSpans.absorb
  dsimp only
  rw [behind]
  split
  next next known =>
    rw [known, relinked, joined]
    · exact congrArg (Span.mk _ · _ _) known.symm
    · exact congrArg (Span.mk _ · _ _) known.symm
  next known =>
    rw [known]
    apply joined
    · exact congrArg (Span.mk _ · _ _) known.symm
    · exact congrArg (Span.mk _ · _ _) known.symm

theorem mergeSyms_id {bigram : Bigram} (distinct : bigram.left ≠ bigram.right) (index : Nat) :
    (mergeSyms tables sym bigram index).id =
      if index = bigram.left then (tables.result[bigram.rank]?).join
      else if index = bigram.right then none else (sym index).id := by
  have joined : ∀ left right : Sym, left.id = (tables.result[bigram.rank]?).join → right.id = none →
      (Function.update (Function.update sym bigram.left left) bigram.right right index).id =
        if index = bigram.left then (tables.result[bigram.rank]?).join
        else if index = bigram.right then none else (sym index).id := by
    intro left right leftId rightId
    by_cases atRight : index = bigram.right
    · subst atRight
      rw [Function.update_self, if_neg distinct.symm, if_pos rfl, rightId]
    · rw [Function.update_of_ne atRight, if_neg atRight]
      by_cases atLeft : index = bigram.left
      · subst atLeft
        rw [Function.update_self, if_pos rfl, leftId]
      · rw [Function.update_of_ne atLeft, if_neg atLeft]
  unfold mergeSyms
  dsimp only
  cases (sym bigram.right).next with
  | none =>
      apply joined
      · rfl
      · rfl
  | some next =>
      dsimp only
      by_cases here : index = next
      · subst here
        rw [Function.update_self]
        apply joined
        · rfl
        · rfl
      · rw [Function.update_of_ne here]
        apply joined
        · rfl
        · rfl

section Merge

variable {position : Nat} {bigram : Bigram}

/-- A symbol apart from the two that were merged keeps its id and its text. -/
theorem Spells.merge_other (spells : Spells vocab piece ns sym live)
    (atLeft : live[position]? = some bigram.left)
    (atRight : live[position + 1]? = some bigram.right) {index : Nat}
    (notLeft : index ≠ bigram.left) (notRight : index ≠ bigram.right) :
    (mergeSyms tables sym bigram index).id = (sym index).id ∧
      (mergeSyms tables sym bigram index).text piece = (sym index).text piece := by
  obtain ⟨off, n⟩ := spells.list.absorb_other atLeft atRight notLeft notRight
  rw [← @mergeSyms_spans tables] at off n
  refine ⟨?_, congrArg₂ (span piece) off n⟩
  rw [mergeSyms_id (spells.list.distinct atLeft atRight), if_neg notLeft, if_neg notRight]

/-- The joined symbol spells both texts. -/
theorem Spells.joined_text (spells : Spells vocab piece ns sym live)
    (atLeft : live[position]? = some bigram.left)
    (atRight : live[position + 1]? = some bigram.right) :
    (mergeSyms tables sym bigram bigram.left).text piece =
      (sym bigram.left).text piece ++ (sym bigram.right).text piece := by
  have joined := @LinkedSpans.Linked.absorb_text _ _ _ _ piece _ _ _ spells.list atLeft atRight
  rw [← @mergeSyms_spans tables] at joined
  exact joined

theorem Spells.merge (spells : Spells vocab piece ns sym live)
    (accepted : Accepted vocab merges tables) (atLeft : live[position]? = some bigram.left)
    (atRight : live[position + 1]? = some bigram.right)
    (found : bigramOf tables sym (some bigram.left) (some bigram.right) = some bigram) :
    Spells vocab piece ns (mergeSyms tables sym bigram) (live.eraseIdx (position + 1)) := by
  have distinct := spells.list.distinct atLeft atRight
  have list := spells.list.merged atLeft atRight
  rw [← @mergeSyms_spans tables] at list
  apply Spells.of_list list
  intro index member
  obtain ⟨before, notRight⟩ := (spells.list.mem_unlinked atLeft atRight).mp member
  by_cases notLeft : index = bigram.left
  · subst notLeft
    rw [spells.joined_text atLeft atRight]
    have ranked := (spells.rankAt_texts accepted atLeft atRight bigram.rank).mpr
      ⟨bigram, found, rfl⟩
    simp only [rankAt, texts, List.getElem?_map, atLeft, atRight, Option.map_some,
      Option.bind_eq_bind, Option.bind_some] at ranked
    obtain ⟨_, _, id, whole, result⟩ := accepted.resolved ranked
    rw [whole, mergeSyms_id distinct, if_pos rfl, result, Option.join_some]
  · obtain ⟨sameId, sameText⟩ :=
      @Spells.merge_other _ tables _ _ _ _ _ _ spells atLeft atRight _ notLeft notRight
    rw [sameId, sameText, spells.named index before]

theorem mergeAt_eq {symbols : List Bytes} {left right : Bytes}
    (atLeft : symbols[position]? = some left) (atRight : symbols[position + 1]? = some right) :
    mergeAt symbols position = GreedyMerge.mergeAt (· ++ ·) symbols position := by
  rw [GreedyMerge.mergeAt_eq atLeft atRight, mergeAt, List.getD_eq_getElem?_getD,
    List.getD_eq_getElem?_getD, atLeft, atRight, Option.getD_some, Option.getD_some]

theorem Spells.merge_texts (spells : Spells vocab piece ns sym live)
    (atLeft : live[position]? = some bigram.left)
    (atRight : live[position + 1]? = some bigram.right) :
    texts piece (mergeSyms tables sym bigram) (live.eraseIdx (position + 1)) =
      mergeAt (texts piece sym live) position := by
  have leftText : (texts piece sym live)[position]? = some ((sym bigram.left).text piece) := by
    rw [texts, List.getElem?_map, atLeft, Option.map_some]
  have rightText :
      (texts piece sym live)[position + 1]? = some ((sym bigram.right).text piece) := by
    rw [texts, List.getElem?_map, atRight, Option.map_some]
  rw [mergeAt_eq leftText rightText, texts_eq_spelled, mergeSyms_spans, texts_eq_spelled,
    spells.list.absorb_spelled atLeft atRight]

end Merge

/-! ## The heap after a merge -/

theorem g4TryPair_holds {left right : Option Nat} {bigram : Bigram} :
    (g4TryPair tables sym left right heap).Holds bigram ↔
      bigramOf tables sym left right = some bigram ∨ heap.Holds bigram := by
  unfold g4TryPair
  cases bigramOf tables sym left right with
  | none => simp
  | some pushed => rw [push_holds, Option.some.injEq, eq_comm]

theorem g4TryPair_ordered (left right : Option Nat)
    (ordered : Ordered Bigram.key heap.entries heap.size) :
    Ordered Bigram.key (g4TryPair tables sym left right heap).entries
      (g4TryPair tables sym left right heap).size := by
  unfold g4TryPair
  cases bigramOf tables sym left right with
  | none => exact ordered
  | some pushed => exact push_ordered ordered

theorem g4TryPair_size (left right : Option Nat) :
    (g4TryPair tables sym left right heap).size ≤ heap.size + 1 := by
  unfold g4TryPair
  cases bigramOf tables sym left right with
  | none => exact Nat.le_succ heap.size
  | some pushed => exact le_rfl

/-- What `Waits` asks of a bigram holds of a pair of neighbours. -/
theorem Spells.sound_neighbours (spells : Spells vocab piece ns sym live)
    {left right : Nat} (adjacent : LinkedSpans.Adjacent live left right) {bigram : Bigram}
    (found : bigramOf tables sym (some left) (some right) = some bigram) :
    tables.pairRank bigram.lid bigram.rid = some bigram.rank ∧
      bigram.left < ns ∧ bigram.right < ns ∧
        (bigram.left ∈ live → bigram.right ∈ live →
          ∃ position, live[position]? = some bigram.left ∧
            live[position + 1]? = some bigram.right) := by
  obtain ⟨rfl, rfl, _, _, ranked⟩ := bigramOf_eq_some.mp found
  obtain ⟨position, atLeft, atRight⟩ := adjacent
  exact ⟨ranked, spells.below _ (List.mem_of_getElem? atLeft),
    spells.below _ (List.mem_of_getElem? atRight), fun _ _ => ⟨position, atLeft, atRight⟩⟩

section Merge

variable {position : Nat} {bigram : Bigram}

/-- The two pairs around the joined symbol are the only new candidates. -/
theorem Waits.merge (waits : Waits tables ns sym live heap) (nonempty : 0 < heap.size)
    (popped : (heap.pop Bigram.key).1 = bigram) (spells : Spells vocab piece ns sym live)
    (accepted : Accepted vocab merges tables) (atLeft : live[position]? = some bigram.left)
    (atRight : live[position + 1]? = some bigram.right)
    (found : bigramOf tables sym (some bigram.left) (some bigram.right) = some bigram) :
    Waits tables ns (mergeSyms tables sym bigram) (live.eraseIdx (position + 1))
      (g4TryPair tables (mergeSyms tables sym bigram) (some bigram.left)
        (mergeSyms tables sym bigram bigram.left).next
        (g4TryPair tables (mergeSyms tables sym bigram)
          (mergeSyms tables sym bigram bigram.left).prev (some bigram.left)
          (heap.pop Bigram.key).2)) := by
  have merged := spells.merge accepted atLeft atRight found
  have distinct := spells.list.distinct atLeft atRight
  have joinedLive : bigram.left ∈ live.eraseIdx (position + 1) :=
    (spells.list.mem_unlinked atLeft atRight).mpr ⟨List.mem_of_getElem? atLeft, distinct⟩
  refine ⟨?_, ?_, ?_⟩
  · exact g4TryPair_ordered _ _ (g4TryPair_ordered _ _ (pop_ordered waits.ordered))
  · intro candidate held
    rw [g4TryPair_holds, g4TryPair_holds] at held
    rcases held with after | before | kept
    · have next := (bigramOf_sides after).2
      rw [next] at after
      exact merged.sound_neighbours ((merged.list.adjacent_iff_next joinedLive).mpr next) after
    · have prev := (bigramOf_sides before).1
      rw [prev] at before
      exact merged.sound_neighbours ((merged.list.adjacent_iff_prev joinedLive).mpr prev) before
    · obtain ⟨ranked, leftBelow, rightBelow, adjacent⟩ :=
        waits.sound candidate ((pop_holds nonempty).1 kept)
      refine ⟨ranked, leftBelow, rightBelow, ?_⟩
      intro leftMember rightMember
      obtain ⟨leftLive, leftStays⟩ := (spells.list.mem_unlinked atLeft atRight).mp leftMember
      obtain ⟨rightLive, rightStays⟩ := (spells.list.mem_unlinked atLeft atRight).mp rightMember
      exact LinkedSpans.Adjacent.unlinked (adjacent leftLive rightLive) atRight leftStays rightStays
  · intro place left right before behind candidate pair
    have adjacent : LinkedSpans.Adjacent (live.eraseIdx (position + 1)) left right :=
      ⟨place, before, behind⟩
    rw [g4TryPair_holds, g4TryPair_holds]
    rcases spells.list.adjacent_unlinked atLeft atRight adjacent with
      rfl | rfl | ⟨leftOther, leftStays, rightOther, rightStays, place', before', behind'⟩
    · left
      have next : (mergeSyms tables sym bigram bigram.left).next = some right :=
        (merged.list.adjacent_iff_next joinedLive).mp adjacent
      rw [next, pair]
    · right
      left
      have prev : (mergeSyms tables sym bigram bigram.left).prev = some left :=
        (merged.list.adjacent_iff_prev joinedLive).mp adjacent
      rw [prev, pair]
    · right
      right
      have old : bigramOf tables sym (some left) (some right) = some candidate := by
        obtain ⟨atLeft', atRight', leftId, rightId, ranked⟩ := bigramOf_eq_some.mp pair
        rw [mergeSyms_id distinct, if_neg leftOther, if_neg leftStays] at leftId
        rw [mergeSyms_id distinct, if_neg rightOther, if_neg rightStays] at rightId
        exact bigramOf_eq_some.mpr ⟨atLeft', atRight', leftId, rightId, ranked⟩
      have held := waits.complete place' left right before' behind' candidate old
      rcases (@pop_holds _ _ _ Bigram.key heap nonempty candidate).2 held with top | kept
      · rw [popped] at top
        rw [top] at old
        exact absurd (bigramOf_eq_some.mp old).1.symm leftOther
      · exact kept

end Merge

/-! ## The whole loop -/

/-- One pop keeps the invariant and the symbols the plain algorithm ends with. -/
theorem popBigram_step (accepted : Accepted vocab merges tables) {state : PieceState}
    (spells : Spells vocab piece ns state.sym live) (waits : Waits tables ns state.sym live state.heap)
    (nonempty : 0 < state.heap.size) :
    ∃ live', Spells vocab piece ns (popBigram tables state).sym live' ∧
      Waits tables ns (popBigram tables state).sym live' (popBigram tables state).heap ∧
      mergeAll (mergeRank merges) (texts piece (popBigram tables state).sym live') =
        mergeAll (mergeRank merges) (texts piece state.sym live) ∧
      live'[0]? = live[0]? ∧
      (popBigram tables state).heap.size + 2 * live'.length <
        state.heap.size + 2 * live.length := by
  have smaller : (state.heap.pop Bigram.key).2.size = state.heap.size - 1 := rfl
  unfold popBigram
  simp only
  cases stale : outdated state.sym (state.heap.pop Bigram.key).1 with
  | true =>
      rw [if_pos rfl]
      refine ⟨live, spells, waits.skip nonempty spells stale, rfl, rfl, ?_⟩
      simp only
      omega
  | false =>
      rw [if_neg Bool.false_ne_true]
      obtain ⟨position, atLeft, atRight, found⟩ :=
        neighbours_of_current spells waits (pop_holds_root nonempty) stale
      have best := bestPair_of_current accepted spells waits
        (fun other held => pop_le waits.ordered held) atLeft atRight found
      have inside : position + 1 < live.length := (List.getElem?_eq_some_iff.mp atRight).1
      refine ⟨live.eraseIdx (position + 1), spells.merge accepted atLeft atRight found,
        waits.merge nonempty rfl spells accepted atLeft atRight found, ?_, ?_, ?_⟩
      · rw [spells.merge_texts atLeft atRight, mergeAll_of_best _ best]
      · rw [LinkedSpans.getElem?_unlinked, if_pos (Nat.zero_le position)]
      · simp only
        rw [List.length_eraseIdx_of_lt inside]
        refine lt_of_le_of_lt (Nat.add_le_add_right
          ((g4TryPair_size _ _).trans (Nat.succ_le_succ (g4TryPair_size _ _))) _) ?_
        omega

theorem mergeLoop_texts (accepted : Accepted vocab merges tables) (fuel : Nat)
    {state : PieceState} (spells : Spells vocab piece ns state.sym live)
    (waits : Waits tables ns state.sym live state.heap)
    (enough : state.heap.size + 2 * live.length ≤ fuel) :
    ∃ live', Spells vocab piece ns (mergeLoop tables fuel state).sym live' ∧
      texts piece (mergeLoop tables fuel state).sym live' =
        mergeAll (mergeRank merges) (texts piece state.sym live) ∧
      live'[0]? = live[0]? := by
  induction fuel generalizing state live with
  | zero =>
      have empty : live = [] := List.length_eq_zero_iff.mp (by omega)
      subst empty
      refine ⟨[], spells, ?_, rfl⟩
      rw [mergeAll_of_none]
      · rfl
      · exact bestPair_eq_none _ fun position => rfl
  | succ fuel inductionHypothesis =>
      rw [mergeLoop]
      by_cases empty : state.heap.size = 0
      · rw [if_pos empty]
        refine ⟨live, spells, ?_, rfl⟩
        rw [mergeAll_of_none]
        apply bestPair_eq_none
        intro position
        by_contra ranked
        obtain ⟨rank, known⟩ := Option.ne_none_iff_exists'.mp ranked
        obtain ⟨left, right, atLeft, atRight⟩ := texts_neighbours known
        obtain ⟨bigram, found, _⟩ := (spells.rankAt_texts accepted atLeft atRight rank).mp known
        obtain ⟨index, below, _⟩ := waits.complete position left right atLeft atRight bigram found
        omega
      · rw [if_neg empty]
        obtain ⟨live', spells', waits', same, first, less⟩ :=
          popBigram_step accepted spells waits (Nat.pos_of_ne_zero empty)
        obtain ⟨final, finalSpells, finalTexts, finalFirst⟩ :=
          inductionHypothesis spells' waits' (by omega)
        exact ⟨final, finalSpells, finalTexts.trans same, finalFirst.trans first⟩

/-! ## The initial symbols -/

/-- The characters are the pieces whose width the lead byte tells. -/
theorem utf8Chunks_eq (piece : Bytes) : utf8Chunks piece = LinkedSpans.pieces g4Utf8Len piece := by
  induction piece using utf8Chunks.induct with
  | case1 => rw [utf8Chunks, LinkedSpans.pieces]
  | case2 lead rest inductionHypothesis =>
      have wide : g4Utf8Len lead = g4Utf8Len lead - 1 + 1 := by
        have positive := g4Utf8Len_pos lead
        omega
      rw [utf8Chunks, LinkedSpans.pieces, inductionHypothesis, wide, List.take_succ_cons,
        List.drop_succ_cons, Nat.add_sub_cancel]

theorem utf8Chunks_flatten (piece : Bytes) : (utf8Chunks piece).flatten = piece := by
  rw [utf8Chunks_eq, LinkedSpans.pieces_flatten]

/-- Without the ids, the loop cuts spans. -/
theorem initSyms_cut (fuel o ns : Nat) (sym : Nat → Sym) :
    symSpans (initSyms vocab piece fuel o ns sym).1 =
        (LinkedSpans.cut g4Utf8Len piece fuel o ns (symSpans sym)).1 ∧
      (initSyms vocab piece fuel o ns sym).2 =
        (LinkedSpans.cut g4Utf8Len piece fuel o ns (symSpans sym)).2 := by
  induction fuel generalizing o ns sym with
  | zero => exact ⟨rfl, rfl⟩
  | succ fuel inductionHypothesis =>
      rw [initSyms, LinkedSpans.cut]
      by_cases more : o < piece.length
      · have lead : piece.getD o 0 = piece[o] := by
          rw [List.getD_eq_getElem?_getD, List.getElem?_eq_getElem more, Option.getD_some]
        rw [if_pos more, List.getElem?_eq_getElem more, lead]
        simp only
        rw [(inductionHypothesis _ _ _).1, (inductionHypothesis _ _ _).2, symSpans_update]
        exact ⟨rfl, rfl⟩
      · rw [if_neg more, List.getElem?_eq_none (not_lt.mp more)]
        exact ⟨rfl, rfl⟩

/-- A symbol is named after its text when it is cut. -/
theorem initSyms_named (fuel o ns : Nat) (sym : Nat → Sym)
    (named : ∀ index < ns, (sym index).id = vocabLookup vocab ((sym index).text piece)) :
    ∀ index < (initSyms vocab piece fuel o ns sym).2,
      ((initSyms vocab piece fuel o ns sym).1 index).id =
        vocabLookup vocab (((initSyms vocab piece fuel o ns sym).1 index).text piece) := by
  induction fuel generalizing o ns sym with
  | zero => exact named
  | succ fuel inductionHypothesis =>
      rw [initSyms]
      split
      next more =>
        apply inductionHypothesis
        intro index below
        rcases Nat.lt_succ_iff_lt_or_eq.mp below with earlier | rfl
        · rw [Function.update_of_ne earlier.ne]
          exact named index earlier
        · rw [Function.update_self]
          rfl
      next => exact named

section Start

variable {start : Nat → Sym}

theorem initSyms_count :
    (initSyms vocab piece piece.length 0 0 start).2 = (utf8Chunks piece).length := by
  rw [(initSyms_cut _ _ _ _).2, LinkedSpans.cut_count g4Utf8Len_pos, utf8Chunks_eq]

theorem initSyms_texts :
    texts piece (initSyms vocab piece piece.length 0 0 start).1
      (List.range (utf8Chunks piece).length) = utf8Chunks piece := by
  rw [texts_eq_spelled, (initSyms_cut _ _ _ _).1, utf8Chunks_eq,
    LinkedSpans.cut_spelled g4Utf8Len_pos]

theorem initSyms_spells :
    Spells vocab piece (utf8Chunks piece).length
      (initSyms vocab piece piece.length 0 0 start).1 (List.range (utf8Chunks piece).length) := by
  apply Spells.of_list
  · rw [(initSyms_cut _ _ _ _).1, utf8Chunks_eq]
    exact LinkedSpans.cut_linked g4Utf8Len_pos
  · intro index member
    apply initSyms_named
    · exact fun index below => absurd below (Nat.not_lt_zero index)
    · rw [initSyms_count]
      exact List.mem_range.mp member

end Start

theorem initHeap_spec (sym : Nat → Sym) (ns : Nat) :
    Ordered Bigram.key (initHeap tables sym ns).entries (initHeap tables sym ns).size ∧
      (initHeap tables sym ns).size ≤ ns - 1 ∧
      ∀ bigram, (initHeap tables sym ns).Holds bigram ↔
        ∃ index < ns - 1, bigramOf tables sym (some index) (some (index + 1)) = some bigram := by
  unfold initHeap
  induction ns - 1 with
  | zero =>
      refine ⟨fun _ _ below => absurd below (Nat.not_lt_zero _), le_rfl, fun bigram => ?_⟩
      constructor
      · rintro ⟨index, below, _⟩
        exact absurd below (Nat.not_lt_zero index)
      · rintro ⟨index, below, _⟩
        exact absurd below (Nat.not_lt_zero index)
  | succ count inductionHypothesis =>
      obtain ⟨ordered, size, holds⟩ := inductionHypothesis
      rw [List.range_succ, List.foldl_append, List.foldl_cons, List.foldl_nil]
      refine ⟨g4TryPair_ordered _ _ ordered, (g4TryPair_size _ _).trans (Nat.succ_le_succ size), ?_⟩
      intro bigram
      rw [g4TryPair_holds, holds]
      constructor
      · rintro (found | ⟨index, below, found⟩)
        · exact ⟨count, Nat.lt_succ_self count, found⟩
        · exact ⟨index, Nat.lt_succ_of_lt below, found⟩
      · rintro ⟨index, below, found⟩
        rcases Nat.lt_succ_iff_lt_or_eq.mp below with earlier | rfl
        · exact Or.inr ⟨index, earlier, found⟩
        · exact Or.inl found

theorem initHeap_waits (spells : Spells vocab piece ns sym (List.range ns)) :
    Waits tables ns sym (List.range ns) (initHeap tables sym ns) := by
  obtain ⟨ordered, _, holds⟩ := @initHeap_spec tables sym ns
  refine ⟨ordered, ?_, ?_⟩
  · intro bigram held
    obtain ⟨index, below, found⟩ := (holds bigram).mp held
    have adjacent : LinkedSpans.Adjacent (List.range ns) index (index + 1) :=
      ⟨index, List.getElem?_range (by omega), List.getElem?_range (by omega)⟩
    exact spells.sound_neighbours adjacent found
  · intro position left right atLeft atRight bigram found
    obtain ⟨_, rfl⟩ := LinkedSpans.range_getElem?.mp atLeft
    obtain ⟨below, rfl⟩ := LinkedSpans.range_getElem?.mp atRight
    exact (holds bigram).mpr ⟨left, by omega, found⟩

/-! ## The output -/

/-- The walk emits the symbols from a position on. -/
theorem Spells.emitFrom_drop (spells : Spells vocab piece ns sym live) (fuel position : Nat)
    (enough : live.length ≤ position + fuel) :
    emitFrom tables piece sym fuel live[position]? =
      (texts piece sym (live.drop position)).flatMap (emitText vocab tables) := by
  induction fuel generalizing position with
  | zero =>
      rw [List.drop_of_length_le (by omega : live.length ≤ position)]
      rfl
  | succ fuel inductionHypothesis =>
      by_cases inside : position < live.length
      · have here := List.getElem?_eq_getElem inside
        have member := List.mem_of_getElem? here
        have next := (spells.linked position live[position] here).2
        have full := spells.alive live[position] member
        have named := spells.named live[position] member
        rw [here, emitFrom, next, inductionHypothesis (position + 1) (by omega),
          List.drop_eq_getElem_cons inside, texts, texts, List.map_cons, List.flatMap_cons,
          if_neg full.ne', named]
        rfl
      · rw [List.getElem?_eq_none (not_lt.mp inside), List.drop_of_length_le (not_lt.mp inside)]
        rfl

/-- Away from the atomic newline run, the heap emits what the rescan does. -/
theorem g4Piece_eq_plain {merges : List Bytes} (built : spG4Build vocab merges = some tables)
    (isNlRun : Bool) (noShortcut : isNlRun = true → vocabLookup vocab piece = none) :
    g4Piece vocab tables piece isNlRun = plainPiece vocab merges tables piece := by
  have accepted := accepted_of_build built
  have lookup : (if isNlRun = true then vocabLookup vocab piece else none) = none := by
    split
    next run => exact noShortcut run
    next => rfl
  unfold g4Piece plainPiece
  rw [lookup]
  simp only [initSyms_count]
  have spells := @initSyms_spells vocab piece fun _ => ⟨none, none, 0, 0, none⟩
  have waits := @initHeap_waits vocab tables piece _ _ spells
  have texts_eq := @initSyms_texts vocab piece fun _ => ⟨none, none, 0, 0, none⟩
  generalize (initSyms vocab piece piece.length 0 0 fun _ => ⟨none, none, 0, 0, none⟩).1 = sym at *
  have size := (@initHeap_spec tables sym (utf8Chunks piece).length).2.1
  generalize (utf8Chunks piece).length = ns at *
  obtain ⟨live, finalSpells, finalTexts, first⟩ :=
    @mergeLoop_texts vocab merges tables piece ns (List.range ns) accepted (3 * ns)
      ⟨sym, initHeap tables sym ns⟩ spells waits (by simp only [List.length_range]; omega)
  have head : (if ns = 0 then none else some 0) = live[0]? := by
    rw [first]
    split
    next empty => rw [empty, List.range_zero, List.getElem?_nil]
    next nonempty => rw [List.getElem?_range (Nat.pos_of_ne_zero nonempty)]
  rw [head, finalSpells.emitFrom_drop ns 0 (by simpa using finalSpells.list.length_le), List.drop_zero,
    finalTexts, texts_eq]

/-! ## Vocabularies that end with the byte tokens -/

theorem byteSurface_injective {first second : Nat} (firstByte : first < 256)
    (secondByte : second < 256) (same : byteSurface first = byteSurface second) :
    first = second := by
  have digits : ∀ left < 16, ∀ right < 16, hexUpper left = hexUpper right → left = right := by
    decide
  simp only [byteSurface, List.cons.injEq, true_and, and_true] at same
  have high := digits (first / 16) (by omega) (second / 16) (by omega) same.1
  have low := digits (first % 16) (by omega) (second % 16) (by omega) same.2
  omega

/-- Tokens before the byte tokens. -/
def withBytes (front : Vocab) : Vocab := front ++ (List.range 256).map byteSurface

theorem vocabLookup_withBytes {front : Vocab} (other : ∀ token ∈ front, token.length ≠ 6)
    {byte : Nat} (below : byte < 256) :
    vocabLookup (withBytes front) (byteSurface byte) = some (byte + front.length) := by
  unfold withBytes
  apply List.idxOf?_eq_some_iff.mpr
  refine ⟨?_, ?_, ?_⟩
  · rw [List.length_append, List.length_map, List.length_range]
    omega
  · rw [List.getElem_append_right (Nat.le_add_left _ _)]
    simp
  · intro index before same
    by_cases early : index < front.length
    · rw [List.getElem_append_left early] at same
      exact other _ (List.getElem_mem early) (congrArg List.length same)
    · rw [List.getElem_append_right (not_lt.mp early)] at same
      simp only [List.getElem_map, List.getElem_range] at same
      have equal := byteSurface_injective (by omega) below same
      omega

theorem getElem?_withBytes {front : Vocab} {id : Nat} {surface : Bytes}
    (named : (withBytes front)[id]? = some surface) :
    id < front.length ∧ front[id]? = some surface ∨
      front.length ≤ id ∧ ∃ byte < 256, surface = byteSurface byte := by
  unfold withBytes at named
  by_cases early : id < front.length
  · rw [List.getElem?_append_left early] at named
    exact .inl ⟨early, named⟩
  · rw [List.getElem?_append_right (not_lt.mp early), List.getElem?_map] at named
    obtain ⟨byte, present, rfl⟩ := Option.map_eq_some_iff.mp named
    exact .inr ⟨not_lt.mp early, byte, List.mem_range.mp (List.mem_of_getElem? present), rfl⟩

theorem mapM_byteSurface {front : Vocab} (other : ∀ token ∈ front, token.length ≠ 6) {count : Nat}
    (few : count ≤ 256) :
    ((List.range count).mapM fun byte => vocabLookup (withBytes front) (byteSurface byte)) =
      some (List.range' front.length count) := by
  induction count with
  | zero => rfl
  | succ count inductionHypothesis =>
      rw [List.range_succ, List.mapM_append, inductionHypothesis (by omega)]
      simp [vocabLookup_withBytes other few, List.range'_concat]
      omega

/-- The letters `a`, `b`, the tokens `aa`, `ab` and the byte tokens. -/
def letterVocab : Vocab :=
  [[0x61], [0x62], [0x61, 0x61], [0x61, 0x62]] ++ (List.range 256).map byteSurface

/-- `a b` before `a a`. -/
def letterMerges : List Bytes := [[0x61, 0x20, 0x62], [0x61, 0x20, 0x61]]

def letterTables : MergeTables where
  pairs := [((0, 1), 0), ((0, 0), 1)]
  result := [some 3, some 2]
  byteTok := List.range' 4 256

/-- The piece `aaabc`: the bigram of the second and third letter is stale when it is popped,
and `c` falls back to its byte. -/
theorem g4Piece_eq_plain_letters :
    spG4Build letterVocab letterMerges = some letterTables ∧
      g4Piece letterVocab letterTables [0x61, 0x61, 0x61, 0x62, 0x63] false =
        plainPiece letterVocab letterMerges letterTables [0x61, 0x61, 0x61, 0x62, 0x63] := by
  have lines : letterMerges.mapM (resolveMerge letterVocab) =
      some [some ((0, 1), 3), some ((0, 0), 2)] := by
    decide
  have built : spG4Build letterVocab letterMerges = some letterTables := by
    have letters : letterVocab = withBytes [[0x61], [0x62], [0x61, 0x61], [0x61, 0x62]] := rfl
    rw [spG4Build, lines, letters, mapM_byteSurface (by decide) le_rfl]
    rfl
  exact ⟨built, g4Piece_eq_plain built false fun run => absurd run Bool.false_ne_true⟩

end KairosEngine.Tokenizer
