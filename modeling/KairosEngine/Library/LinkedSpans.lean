import Mathlib.Data.List.Sort
import Mathlib.Logic.Function.Basic
import KairosEngine.Library.GreedyMerge

/-!
# A linked list of spans over one buffer

The nodes cover consecutive pieces of a buffer.  A node can absorb the one behind it,
which is unlinked and keeps no cells; the live nodes, in order, spell the buffer.
-/

namespace KairosEngine.Library

universe u

structure Span where
  prev : Option Nat
  next : Option Nat
  off : Nat
  n : Nat

namespace LinkedSpans

variable {Cell : Type u}

def text (buffer : List Cell) (span : Span) : List Cell := (buffer.drop span.off).take span.n

def spelled (buffer : List Cell) (spans : Nat → Span) (live : List Nat) : List (List Cell) :=
  live.map fun index => text buffer (spans index)

/-- The right node's cells and its successor go to the left one. -/
def takeOver (spans : Nat → Span) (left right : Nat) : Nat → Span :=
  Function.update
    (Function.update spans left
      { spans left with
        n := (spans left).n + (spans right).n
        next := (spans right).next })
    right { spans right with n := 0 }

/-- The node behind the right one points back past it. -/
def absorb (spans : Nat → Span) (left right : Nat) : Nat → Span :=
  match (spans right).next with
  | some next =>
      Function.update (takeOver spans left right) next
        { takeOver spans left right next with prev := some left }
  | none => takeOver spans left right

/-- The nodes met from one on. -/
def walk (spans : Nat → Span) : Nat → Option Nat → List Nat
  | fuel + 1, some index => index :: walk spans fuel (spans index).next
  | 0, _ => []
  | _ + 1, none => []

/-- Cut the buffer into pieces whose width the first cell tells. -/
def cut (width : Cell → Nat) (buffer : List Cell) :
    Nat → Nat → Nat → (Nat → Span) → (Nat → Span) × Nat
  | 0, _, count, spans => (spans, count)
  | fuel + 1, o, count, spans =>
      match buffer[o]? with
      | some lead =>
          let L := min (width lead) (buffer.length - o)
          cut width buffer fuel (o + L) (count + 1)
            (Function.update spans count
              { prev := if count = 0 then none else some (count - 1)
                next := if buffer.length ≤ o + L then none else some (count + 1)
                off := o
                n := L })
      | none => (spans, count)

/-- The nodes at these indices form the linked list and cover consecutive pieces. -/
structure Linked (spans : Nat → Span) (count : Nat) (live : List Nat) : Prop where
  sorted : live.Pairwise (· < ·)
  below : ∀ index ∈ live, index < count
  alive : ∀ index ∈ live, 0 < (spans index).n
  dead : ∀ index < count, index ∉ live → (spans index).n = 0
  linked : ∀ position index, live[position]? = some index →
    (spans index).prev = (if position = 0 then none else live[position - 1]?) ∧
      (spans index).next = live[position + 1]?
  joined : ∀ position index next, live[position]? = some index → live[position + 1]? = some next →
    (spans next).off = (spans index).off + (spans index).n

variable {spans : Nat → Span} {count : Nat} {live : List Nat} {buffer : List Cell}

theorem Linked.position_unique (list : Linked spans count live) {first second index : Nat}
    (atFirst : live[first]? = some index) (atSecond : live[second]? = some index) :
    first = second := by
  have distinct : live.Nodup := list.sorted.imp fun less => less.ne
  obtain ⟨inside, found⟩ := List.getElem?_eq_some_iff.mp atFirst
  exact (List.getElem?_inj inside distinct).mp (atFirst.trans atSecond.symm)

theorem Linked.lt_of_lt (list : Linked spans count live) {first second left right : Nat}
    (atFirst : live[first]? = some left) (atSecond : live[second]? = some right)
    (before : first < second) : left < right := by
  obtain ⟨inside, rfl⟩ := List.getElem?_eq_some_iff.mp atFirst
  obtain ⟨inside', rfl⟩ := List.getElem?_eq_some_iff.mp atSecond
  exact List.pairwise_iff_getElem.mp list.sorted first second inside inside' before

theorem Linked.length_le (list : Linked spans count live) : live.length ≤ count := by
  have distinct : live.Nodup := list.sorted.imp fun less => less.ne
  have inside : live ⊆ List.range count := fun index member =>
    List.mem_range.mpr (list.below index member)
  have sizes := (List.subperm_of_subset distinct inside).length_le
  rwa [List.length_range] at sizes

theorem Linked.mem_of_alive (list : Linked spans count live) {index : Nat} (below : index < count)
    (alive : (spans index).n ≠ 0) : index ∈ live := by
  by_contra gone
  exact alive (list.dead index below gone)

theorem spelled_getElem? (place : Nat) :
    (spelled buffer spans live)[place]? = live[place]?.map fun index => text buffer (spans index) :=
  List.getElem?_map

theorem spelled_neighbours {position : Nat} (inside : position + 1 < (spelled buffer spans live).length) :
    ∃ left right, live[position]? = some left ∧ live[position + 1]? = some right := by
  rw [spelled, List.length_map] at inside
  exact ⟨_, _, List.getElem?_eq_getElem (by omega), List.getElem?_eq_getElem inside⟩

/-- The second index follows the first. -/
def Adjacent (live : List Nat) (first second : Nat) : Prop :=
  ∃ position, live[position]? = some first ∧ live[position + 1]? = some second

theorem Linked.adjacent_iff_next (list : Linked spans count live) {first second : Nat}
    (member : first ∈ live) :
    Adjacent live first second ↔ (spans first).next = some second := by
  constructor
  · rintro ⟨position, here, there⟩
    rw [(list.linked position first here).2, there]
  · intro next
    obtain ⟨position, here⟩ := List.mem_iff_getElem?.mp member
    rw [(list.linked position first here).2] at next
    exact ⟨position, here, next⟩

theorem Linked.adjacent_iff_prev (list : Linked spans count live) {first second : Nat}
    (member : second ∈ live) :
    Adjacent live first second ↔ (spans second).prev = some first := by
  constructor
  · rintro ⟨position, here, there⟩
    rw [(list.linked (position + 1) second there).1, if_neg (Nat.succ_ne_zero position),
      Nat.add_sub_cancel, here]
  · intro prev
    obtain ⟨position, there⟩ := List.mem_iff_getElem?.mp member
    rw [(list.linked position second there).1] at prev
    cases position with
    | zero => cases prev
    | succ position => exact ⟨position, prev, there⟩

/-- The text of two neighbours is that of their cells taken together. -/
theorem Linked.append_text (list : Linked spans count live) {position left right : Nat}
    (atLeft : live[position]? = some left) (atRight : live[position + 1]? = some right) :
    text buffer (spans left) ++ text buffer (spans right) =
      (buffer.drop (spans left).off).take ((spans left).n + (spans right).n) := by
  rw [text, text, list.joined position left right atLeft atRight, List.take_add, List.drop_drop]

/-- The walk from a position on meets the nodes that follow. -/
theorem Linked.walk_eq (list : Linked spans count live) (fuel position : Nat)
    (enough : live.length ≤ position + fuel) :
    walk spans fuel live[position]? = live.drop position := by
  induction fuel generalizing position with
  | zero =>
      rw [List.drop_of_length_le (by omega)]
      rfl
  | succ fuel inductionHypothesis =>
      by_cases inside : position < live.length
      · have here := List.getElem?_eq_getElem inside
        have next := (list.linked position live[position] here).2
        rw [here, walk, next, inductionHypothesis (position + 1) (by omega),
          ← List.drop_eq_getElem_cons inside]
      · rw [List.getElem?_eq_none (not_lt.mp inside), List.drop_of_length_le (not_lt.mp inside)]
        rfl

/-! ## A merge -/

theorem takeOver_apply {left right : Nat} (distinct : left ≠ right) (index : Nat) :
    takeOver spans left right index =
      { prev := (spans index).prev
        next := if index = left then (spans right).next else (spans index).next
        off := (spans index).off
        n := if index = left then (spans left).n + (spans right).n
          else if index = right then 0 else (spans index).n } := by
  unfold takeOver
  by_cases atRight : index = right
  · subst atRight
    rw [Function.update_self]
    simp [Ne.symm distinct]
  · rw [Function.update_of_ne atRight]
    by_cases atLeft : index = left
    · subst atLeft
      rw [Function.update_self]
      simp
    · rw [Function.update_of_ne atLeft]
      simp [atLeft, atRight]

theorem absorb_apply {left right : Nat} (distinct : left ≠ right) (index : Nat) :
    absorb spans left right index =
      { prev := if (spans right).next = some index then some left else (spans index).prev
        next := if index = left then (spans right).next else (spans index).next
        off := (spans index).off
        n := if index = left then (spans left).n + (spans right).n
          else if index = right then 0 else (spans index).n } := by
  have joined := @takeOver_apply spans left right distinct index
  unfold absorb
  cases known : (spans right).next with
  | none =>
      simp only [known, reduceCtorEq, if_false] at joined ⊢
      exact joined
  | some next =>
      simp only [known] at joined ⊢
      by_cases here : index = next
      · subst here
        rw [Function.update_self, joined, if_pos rfl]
      · rw [Function.update_of_ne here, joined, if_neg fun same => here (Option.some.inj same).symm]

section Absorb

variable {position left right : Nat}

theorem Linked.distinct (list : Linked spans count live) (atLeft : live[position]? = some left)
    (atRight : live[position + 1]? = some right) : left ≠ right :=
  (list.lt_of_lt atLeft atRight (Nat.lt_succ_self position)).ne

/-- The nodes behind the merged one move up by one position. -/
theorem getElem?_unlinked {Entry : Type u} (live : List Entry) (position index : Nat) :
    (live.eraseIdx (position + 1))[index]? =
      if index ≤ position then live[index]? else live[index + 1]? := by
  rw [List.getElem?_eraseIdx]
  by_cases front : index ≤ position
  · rw [if_pos front, if_pos (by omega)]
  · rw [if_neg front, if_neg (by omega)]

/-- Where a node of the merged list stood before. -/
theorem Linked.unlinked_cases (list : Linked spans count live)
    (atLeft : live[position]? = some left) (atRight : live[position + 1]? = some right)
    {place index : Nat} (here : (live.eraseIdx (position + 1))[place]? = some index) :
    place = position ∧ index = left ∨
      (place ≠ position ∧ index ≠ left ∧ index ≠ right ∧
        live[if place < position then place else place + 1]? = some index) := by
  rw [getElem?_unlinked] at here
  by_cases same : place = position
  · subst same
    rw [if_pos le_rfl, atLeft, Option.some.injEq] at here
    exact Or.inl ⟨rfl, here.symm⟩
  · right
    have before : live[if place < position then place else place + 1]? = some index := by
      by_cases front : place < position
      · rw [if_pos front]
        rwa [if_pos front.le] at here
      · rw [if_neg front]
        rwa [if_neg (by omega)] at here
    refine ⟨same, ?_, ?_, before⟩
    · rintro rfl
      have unique := list.position_unique before atLeft
      split at unique <;> omega
    · rintro rfl
      have unique := list.position_unique before atRight
      split at unique <;> omega

theorem Linked.mem_unlinked (list : Linked spans count live)
    (atLeft : live[position]? = some left) (atRight : live[position + 1]? = some right)
    {index : Nat} :
    index ∈ live.eraseIdx (position + 1) ↔ index ∈ live ∧ index ≠ right := by
  constructor
  · intro member
    obtain ⟨place, here⟩ := List.mem_iff_getElem?.mp member
    refine ⟨List.mem_of_mem_eraseIdx member, ?_⟩
    rcases list.unlinked_cases atLeft atRight here with ⟨_, rfl⟩ | ⟨_, _, other, _⟩
    · exact list.distinct atLeft atRight
    · exact other
  · rintro ⟨member, other⟩
    obtain ⟨place, here⟩ := List.mem_iff_getElem?.mp member
    rw [List.mem_iff_getElem?]
    rcases Nat.lt_trichotomy place (position + 1) with front | same | back
    · exact ⟨place, by rw [getElem?_unlinked, if_pos (by omega), here]⟩
    · rw [same, atRight, Option.some.injEq] at here
      exact absurd here.symm other
    · refine ⟨place - 1, ?_⟩
      rw [getElem?_unlinked, if_neg (by omega), show place - 1 + 1 = place by omega, here]

theorem Linked.absorb_linked (list : Linked spans count live)
    (atLeft : live[position]? = some left) (atRight : live[position + 1]? = some right)
    (place index : Nat) (here : (live.eraseIdx (position + 1))[place]? = some index) :
    (absorb spans left right index).prev =
        (if place = 0 then none else (live.eraseIdx (position + 1))[place - 1]?) ∧
      (absorb spans left right index).next = (live.eraseIdx (position + 1))[place + 1]? := by
  have rightNext := (list.linked (position + 1) right atRight).2
  have elsewhere : ∀ other, live[other]? = some index → other ≠ position + 2 →
      (spans right).next ≠ some index := by
    intro other found away same
    rw [rightNext] at same
    exact away (list.position_unique found same)
  rw [absorb_apply (list.distinct atLeft atRight)]
  simp only [getElem?_unlinked]
  rcases list.unlinked_cases atLeft atRight here with ⟨rfl, rfl⟩ | ⟨other, notLeft, notRight, before⟩
  · obtain ⟨prev, _⟩ := list.linked place index atLeft
    rw [if_neg (elsewhere place atLeft (by omega)), if_pos rfl, rightNext,
      if_neg (by omega : ¬ place + 1 ≤ place), prev, if_pos (by omega : place - 1 ≤ place)]
    exact ⟨rfl, rfl⟩
  · rw [if_neg notLeft]
    by_cases front : place < position
    · rw [if_pos front] at before
      obtain ⟨prev, next⟩ := list.linked place index before
      rw [if_neg (elsewhere place before (by omega)), prev, next, if_pos (by omega : place + 1 ≤ _)]
      refine ⟨?_, rfl⟩
      split
      next => rfl
      next => rw [if_pos (by omega)]
    · rw [if_neg front] at before
      obtain ⟨prev, next⟩ := list.linked (place + 1) index before
      rw [next, if_neg (by omega : ¬ place + 1 ≤ position), if_neg (by omega : ¬ place = 0)]
      refine ⟨?_, rfl⟩
      by_cases first : place = position + 1
      · subst first
        rw [if_pos (by rw [rightNext]; exact before), if_pos (by omega : position + 1 - 1 ≤ position)]
        exact atLeft.symm
      · rw [if_neg (elsewhere (place + 1) before (by omega)), prev, if_neg (Nat.succ_ne_zero place),
          if_neg (by omega : ¬ place - 1 ≤ position), show place - 1 + 1 = place + 1 - 1 by omega]

theorem Linked.absorb_joined (list : Linked spans count live)
    (atLeft : live[position]? = some left) (atRight : live[position + 1]? = some right)
    (place index next : Nat) (here : (live.eraseIdx (position + 1))[place]? = some index)
    (behind : (live.eraseIdx (position + 1))[place + 1]? = some next) :
    (absorb spans left right next).off =
      (absorb spans left right index).off + (absorb spans left right index).n := by
  have distinct := list.distinct atLeft atRight
  rw [absorb_apply distinct, absorb_apply distinct]
  simp only
  rw [getElem?_unlinked] at behind
  rcases list.unlinked_cases atLeft atRight here with ⟨rfl, rfl⟩ | ⟨other, notLeft, notRight, before⟩
  · rw [if_neg (by omega)] at behind
    have first := list.joined place index right atLeft atRight
    have second := list.joined (place + 1) right next atRight behind
    rw [if_pos rfl]
    omega
  · rw [if_neg notLeft, if_neg notRight]
    by_cases front : place < position
    · rw [if_pos front] at before
      rw [if_pos (by omega)] at behind
      exact list.joined place index next before behind
    · rw [if_neg front] at before
      rw [if_neg (by omega)] at behind
      exact list.joined (place + 1) index next before behind

theorem Linked.merged (list : Linked spans count live)
    (atLeft : live[position]? = some left) (atRight : live[position + 1]? = some right) :
    Linked (absorb spans left right) count (live.eraseIdx (position + 1)) := by
  have distinct := list.distinct atLeft atRight
  have members : ∀ {index}, index ∈ live.eraseIdx (position + 1) ↔
      index ∈ live ∧ index ≠ right := list.mem_unlinked atLeft atRight
  refine ⟨list.sorted.sublist (List.eraseIdx_sublist _ _), ?_, ?_, ?_,
    list.absorb_linked atLeft atRight, list.absorb_joined atLeft atRight⟩
  · intro index member
    exact list.below index (members.mp member).1
  · intro index member
    obtain ⟨before, notRight⟩ := members.mp member
    have full := list.alive index before
    rw [absorb_apply distinct]
    simp only
    split
    next same =>
      subst same
      omega
    next => exact full
  · intro index below gone
    rw [absorb_apply distinct]
    simp only
    by_cases notLeft : index = left
    · subst notLeft
      exact absurd (members.mpr ⟨List.mem_of_getElem? atLeft, distinct⟩) gone
    · rw [if_neg notLeft]
      split
      next => rfl
      next notRight =>
        exact list.dead index below fun member => gone (members.mpr ⟨member, notRight⟩)

/-- The nodes apart from the two that were merged keep their text. -/
theorem Linked.absorb_other (list : Linked spans count live)
    (atLeft : live[position]? = some left) (atRight : live[position + 1]? = some right)
    {index : Nat} (notLeft : index ≠ left) (notRight : index ≠ right) :
    (absorb spans left right index).off = (spans index).off ∧
      (absorb spans left right index).n = (spans index).n := by
  rw [absorb_apply (list.distinct atLeft atRight)]
  simp only [if_neg notLeft, if_neg notRight, and_self]

theorem Linked.absorb_text (list : Linked spans count live)
    (atLeft : live[position]? = some left) (atRight : live[position + 1]? = some right) :
    text buffer (absorb spans left right left) =
      text buffer (spans left) ++ text buffer (spans right) := by
  rw [list.append_text atLeft atRight, absorb_apply (list.distinct atLeft atRight)]
  simp only [text, if_true]

/-- The texts after a merge are those of the list that merges at the position. -/
theorem Linked.absorb_spelled (list : Linked spans count live)
    (atLeft : live[position]? = some left) (atRight : live[position + 1]? = some right) :
    spelled buffer (absorb spans left right) (live.eraseIdx (position + 1)) =
      GreedyMerge.mergeAt (· ++ ·) (spelled buffer spans live) position := by
  have leftText : (spelled buffer spans live)[position]? = some (text buffer (spans left)) := by
    rw [spelled_getElem?, atLeft, Option.map_some]
  have rightText : (spelled buffer spans live)[position + 1]? = some (text buffer (spans right)) := by
    rw [spelled_getElem?, atRight, Option.map_some]
  have unchanged : ∀ {place index : Nat}, live[place]? = some index → place ≠ position →
      place ≠ position + 1 →
        text buffer (absorb spans left right index) = text buffer (spans index) := by
    intro place index here notLeft notRight
    have otherLeft : index ≠ left := by
      rintro rfl
      exact notLeft (list.position_unique here atLeft)
    have otherRight : index ≠ right := by
      rintro rfl
      exact notRight (list.position_unique here atRight)
    obtain ⟨off, n⟩ := list.absorb_other atLeft atRight otherLeft otherRight
    rw [text, text, off, n]
  apply List.ext_getElem?
  intro place
  rw [GreedyMerge.getElem?_mergeAt leftText rightText, spelled_getElem?, spelled_getElem?,
    spelled_getElem?, getElem?_unlinked]
  rcases Nat.lt_trichotomy place position with front | rfl | back
  · rw [if_pos front.le, if_pos front]
    cases here : live[place]? with
    | none => rfl
    | some index =>
        rw [Option.map_some, Option.map_some, unchanged here (by omega) (by omega)]
  · rw [if_pos le_rfl, if_neg (Nat.lt_irrefl place), if_pos rfl, atLeft, Option.map_some,
      list.absorb_text atLeft atRight]
  · rw [if_neg (by omega), if_neg (by omega), if_neg (by omega)]
    cases here : live[place + 1]? with
    | none => rfl
    | some index =>
        rw [Option.map_some, Option.map_some, unchanged here (by omega) (by omega)]

/-- Neighbours that a merge leaves alive stay neighbours. -/
theorem Adjacent.unlinked {first second : Nat} (adjacent : Adjacent live first second)
    (atRight : live[position + 1]? = some right) (firstStays : first ≠ right)
    (secondStays : second ≠ right) : Adjacent (live.eraseIdx (position + 1)) first second := by
  obtain ⟨place, before, behind⟩ := adjacent
  have notFirst : place ≠ position + 1 := by
    rintro rfl
    rw [atRight] at before
    exact firstStays (Option.some.inj before).symm
  have notSecond : place ≠ position := by
    rintro rfl
    rw [atRight] at behind
    exact secondStays (Option.some.inj behind).symm
  by_cases front : place < position
  · refine ⟨place, ?_, ?_⟩
    · rwa [getElem?_unlinked, if_pos front.le]
    · rwa [getElem?_unlinked, if_pos (by omega)]
  · refine ⟨place - 1, ?_, ?_⟩
    · rwa [getElem?_unlinked, if_neg (by omega), show place - 1 + 1 = place by omega]
    · rwa [getElem?_unlinked, if_neg (by omega), show place - 1 + 1 = place by omega]

/-- Apart from the pairs around the merged node, neighbours after a merge were neighbours. -/
theorem Linked.adjacent_unlinked (list : Linked spans count live)
    (atLeft : live[position]? = some left) (atRight : live[position + 1]? = some right)
    {first second : Nat} (adjacent : Adjacent (live.eraseIdx (position + 1)) first second) :
    first = left ∨ second = left ∨
      (first ≠ left ∧ first ≠ right ∧ second ≠ left ∧ second ≠ right ∧
        Adjacent live first second) := by
  obtain ⟨place, here, there⟩ := adjacent
  rcases list.unlinked_cases atLeft atRight here with
    ⟨_, same⟩ | ⟨_, firstOther, firstStays, before⟩
  · exact Or.inl same
  · right
    rcases list.unlinked_cases atLeft atRight there with
      ⟨_, same⟩ | ⟨_, secondOther, secondStays, behind⟩
    · exact Or.inl same
    · refine Or.inr ⟨firstOther, firstStays, secondOther, secondStays, _, before, ?_⟩
      by_cases front : place < position
      · rw [if_pos (by omega)] at behind
        rwa [if_pos front]
      · rw [if_neg (by omega)] at behind
        rwa [if_neg front]

end Absorb

/-! ## The first list -/

/-- The pieces of a buffer. -/
def pieces (width : Cell → Nat) : List Cell → List (List Cell)
  | [] => []
  | lead :: rest =>
      (lead :: rest.take (width lead - 1)) :: pieces width (rest.drop (width lead - 1))
termination_by buffer => buffer.length
decreasing_by
  rw [List.length_drop, List.length_cons]
  omega

variable {width : Cell → Nat}

theorem pieces_flatten (buffer : List Cell) : (pieces width buffer).flatten = buffer := by
  induction buffer using pieces.induct width with
  | case1 => rw [pieces, List.flatten_nil]
  | case2 lead rest inductionHypothesis =>
      rw [pieces, List.flatten_cons, inductionHypothesis, List.cons_append, List.take_append_drop]

theorem pieces_nonempty (buffer : List Cell) : ∀ piece ∈ pieces width buffer, 0 < piece.length := by
  induction buffer using pieces.induct width with
  | case1 =>
      rw [pieces]
      exact fun _ member => absurd member List.not_mem_nil
  | case2 lead rest inductionHypothesis =>
      rw [pieces]
      intro piece member
      rcases List.mem_cons.mp member with rfl | later
      · exact Nat.succ_pos _
      · exact inductionHypothesis piece later

theorem length_pieces_le (buffer : List Cell) : (pieces width buffer).length ≤ buffer.length := by
  induction buffer using pieces.induct width with
  | case1 =>
      rw [pieces]
      exact le_rfl
  | case2 lead rest inductionHypothesis =>
      rw [pieces, List.length_cons, List.length_cons]
      rw [List.length_drop] at inductionHypothesis
      omega

section Cut

variable (positive : ∀ lead, 0 < width lead)
include positive

theorem pieces_drop {o : Nat} {lead : Cell} (here : buffer[o]? = some lead) :
    pieces width (buffer.drop o) =
      (buffer.drop o).take (min (width lead) (buffer.length - o)) ::
        pieces width (buffer.drop (o + min (width lead) (buffer.length - o))) := by
  obtain ⟨inside, rfl⟩ := List.getElem?_eq_some_iff.mp here
  have wide := positive buffer[o]
  have cut : (buffer.drop o).take (min (width buffer[o]) (buffer.length - o)) =
      buffer[o] :: (buffer.drop (o + 1)).take (width buffer[o] - 1) := by
    rw [← List.length_drop, ← List.take_eq_take_min, List.drop_eq_getElem_cons inside,
      ← Nat.succ_pred_eq_of_pos wide, List.take_succ_cons]
    rfl
  have rest : buffer.drop (o + min (width buffer[o]) (buffer.length - o)) =
      (buffer.drop (o + 1)).drop (width buffer[o] - 1) := by
    rw [List.drop_drop]
    by_cases short : width buffer[o] ≤ buffer.length - o
    · rw [min_eq_left short]
      congr 1
      omega
    · rw [min_eq_right (not_le.mp short).le, List.drop_of_length_le (by omega),
        List.drop_of_length_le (by omega)]
  rw [cut, rest, List.drop_eq_getElem_cons inside, pieces]

/-- The nodes of the remaining pieces follow those already cut. -/
theorem cut_spec (fuel o count : Nat) (spans : Nat → Span) (enough : buffer.length ≤ o + fuel)
    (inside : o ≤ buffer.length) :
    (cut width buffer fuel o count spans).2 =
        count + (pieces width (buffer.drop o)).length ∧
      (∀ index < count, (cut width buffer fuel o count spans).1 index = spans index) ∧
      ∀ place piece, (pieces width (buffer.drop o))[place]? = some piece →
        (cut width buffer fuel o count spans).1 (count + place) =
          { prev := if count + place = 0 then none else some (count + place - 1)
            next := if place + 1 = (pieces width (buffer.drop o)).length then none
              else some (count + place + 1)
            off := o + ((pieces width (buffer.drop o)).take place).flatten.length
            n := piece.length } := by
  induction fuel generalizing o count spans with
  | zero =>
      rw [cut, List.drop_of_length_le (by omega : buffer.length ≤ o), pieces]
      exact ⟨rfl, fun _ _ => rfl, fun _ _ found => by cases found⟩
  | succ fuel inductionHypothesis =>
      rw [cut]
      cases here : buffer[o]? with
      | none =>
          rw [List.drop_of_length_le (List.getElem?_eq_none_iff.mp here), pieces]
          exact ⟨rfl, fun _ _ => rfl, fun _ _ found => by cases found⟩
      | some lead =>
          have more : o < buffer.length := (List.getElem?_eq_some_iff.mp here).1
          have wide := positive lead
          have first := pieces_drop positive here
          simp only
          generalize step : min (width lead) (buffer.length - o) = L at first ⊢
          have length : ((buffer.drop o).take L).length = L := by
            rw [List.length_take, List.length_drop]
            omega
          have last : (1 = (pieces width (buffer.drop o)).length) ↔ buffer.length ≤ o + L := by
            rw [first, List.length_cons]
            constructor
            · intro single
              by_contra further
              have next := List.getElem?_eq_getElem (not_le.mp further)
              rw [pieces_drop positive next, List.length_cons] at single
              omega
            · intro done
              rw [List.drop_of_length_le done, pieces, List.length_nil]
          obtain ⟨total, before, after⟩ := inductionHypothesis (o + L) (count + 1)
            (Function.update spans count
              { prev := if count = 0 then none else some (count - 1)
                next := if buffer.length ≤ o + L then none else some (count + 1)
                off := o
                n := L }) (by omega) (by omega)
          refine ⟨?_, ?_, ?_⟩
          · rw [total, first, List.length_cons]
            omega
          · intro index below
            rw [before index (by omega), Function.update_of_ne below.ne]
          · intro place piece found
            cases place with
            | zero =>
                rw [first, List.getElem?_cons_zero, Option.some.injEq] at found
                refine (before count (Nat.lt_succ_self count)).trans ?_
                rw [Function.update_self, ← found, length]
                simp only [Nat.zero_add, last, List.take_zero, List.flatten_nil, List.length_nil,
                  Nat.add_zero]
            | succ place =>
                rw [first, List.getElem?_cons_succ] at found
                have later := after place piece found
                rw [show count + (place + 1) = count + 1 + place by omega, later, first]
                rw [List.length_cons, List.take_succ_cons, List.flatten_cons, List.length_append,
                  length, ← Nat.add_assoc o]
                simp only [Nat.add_right_cancel_iff]

variable {start : Nat → Span}

theorem cut_at {place : Nat} {piece : List Cell} (here : (pieces width buffer)[place]? = some piece) :
    (cut width buffer buffer.length 0 0 start).1 place =
      { prev := if place = 0 then none else some (place - 1)
        next := if place + 1 = (pieces width buffer).length then none else some (place + 1)
        off := ((pieces width buffer).take place).flatten.length
        n := piece.length } := by
  have spec := (@cut_spec _ buffer _ positive buffer.length 0 0 start (by omega) (Nat.zero_le _)).2.2
  rw [List.drop_zero] at spec
  simpa only [Nat.zero_add] using spec place piece here

theorem cut_count :
    (cut width buffer buffer.length 0 0 start).2 = (pieces width buffer).length := by
  have spec := (@cut_spec _ buffer _ positive buffer.length 0 0 start (by omega) (Nat.zero_le _)).1
  rwa [List.drop_zero, Nat.zero_add] at spec

/-- A piece lies where its predecessors end. -/
theorem cut_text {place : Nat} {piece : List Cell}
    (here : (pieces width buffer)[place]? = some piece) :
    text buffer ((cut width buffer buffer.length 0 0 start).1 place) = piece := by
  obtain ⟨inside, found⟩ := List.getElem?_eq_some_iff.mp here
  have whole : buffer = ((pieces width buffer).take place).flatten ++
      (piece ++ ((pieces width buffer).drop (place + 1)).flatten) := by
    rw [← List.flatten_cons, ← found, ← List.drop_eq_getElem_cons inside, ← List.flatten_append,
      List.take_append_drop, pieces_flatten]
  have dropped : buffer.drop ((pieces width buffer).take place).flatten.length =
      piece ++ ((pieces width buffer).drop (place + 1)).flatten :=
    (congrArg (List.drop _) whole).trans List.drop_left
  rw [text, cut_at positive here, dropped, List.take_left]

theorem cut_spelled :
    spelled buffer (cut width buffer buffer.length 0 0 start).1
      (List.range (pieces width buffer).length) = pieces width buffer := by
  apply List.ext_getElem?
  intro place
  rw [spelled_getElem?]
  by_cases inside : place < (pieces width buffer).length
  · rw [List.getElem?_range inside, Option.map_some, List.getElem?_eq_getElem inside,
      cut_text positive (List.getElem?_eq_getElem inside)]
  · rw [List.getElem?_eq_none (by rw [List.length_range]; omega), Option.map_none,
      List.getElem?_eq_none (by omega)]

omit positive in
theorem range_getElem? {count place index : Nat} :
    (List.range count)[place]? = some index ↔ place < count ∧ index = place := by
  rw [List.getElem?_eq_some_iff]
  simp only [List.length_range, List.getElem_range, exists_prop, eq_comm]

theorem cut_linked :
    Linked (cut width buffer buffer.length 0 0 start).1 (pieces width buffer).length
      (List.range (pieces width buffer).length) := by
  have pieceAt : ∀ {index}, index < (pieces width buffer).length →
      ∃ piece, (pieces width buffer)[index]? = some piece :=
    fun inside => ⟨_, List.getElem?_eq_getElem inside⟩
  refine ⟨List.pairwise_lt_range, fun index member => List.mem_range.mp member, ?_, ?_, ?_, ?_⟩
  · intro index member
    obtain ⟨piece, here⟩ := pieceAt (List.mem_range.mp member)
    rw [cut_at positive here]
    exact pieces_nonempty buffer piece (List.mem_of_getElem? here)
  · intro index below gone
    exact absurd (List.mem_range.mpr below) gone
  · intro place index found
    obtain ⟨below, rfl⟩ := range_getElem?.mp found
    obtain ⟨piece, here⟩ := pieceAt below
    rw [cut_at positive here]
    constructor
    · by_cases first : index = 0
      · rw [if_pos first, if_pos first]
      · rw [if_neg first, if_neg first, List.getElem?_range (by omega)]
    · by_cases last : index + 1 = (pieces width buffer).length
      · rw [if_pos last, List.getElem?_eq_none (by rw [List.length_range]; omega)]
      · rw [if_neg last, List.getElem?_range (by omega)]
  · intro place index next found behind
    obtain ⟨below, rfl⟩ := range_getElem?.mp found
    obtain ⟨nextBelow, rfl⟩ := range_getElem?.mp behind
    obtain ⟨piece, here⟩ := pieceAt below
    obtain ⟨nextPiece, there⟩ := pieceAt nextBelow
    rw [cut_at positive here, cut_at positive there, List.take_add_one, here]
    simp only [List.flatten_append, List.length_append, Option.toList_some, List.flatten_cons,
      List.flatten_nil, List.append_nil]

end Cut

end LinkedSpans

end KairosEngine.Library
