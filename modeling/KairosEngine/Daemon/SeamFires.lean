import Mathlib.Data.List.Infix
import KairosEngine.Daemon.PromptMatch

/-!
# When the seam fires

`reseam_join` passes the gaps on the committed side before it looks at the incoming id, so a prompt
that spells a gap itself is compared with what stands behind it.
-/

namespace KairosEngine.Daemon

variable {decode : Decode} {gaps : List Bytes}

/-! ## Where a gap begins -/

def GapBegins (gaps : List Bytes) (text : Bytes) : Prop :=
  ∃ gap ∈ gaps, gap ≠ [] ∧ gap <+: text

instance (gaps : List Bytes) (text : Bytes) : Decidable (GapBegins gaps text) :=
  inferInstanceAs (Decidable (∃ gap ∈ gaps, gap ≠ [] ∧ gap <+: text))

theorem length_dropGaps_le (listed : List Bytes) (text : Bytes) :
    (dropGaps listed text).length ≤ text.length := by
  induction listed generalizing text with
  | nil => exact Nat.le_refl _
  | cons gap rest inductionHypothesis =>
      apply Nat.le_trans (inductionHypothesis _)
      beta_reduce
      split
      next =>
        rw [List.length_drop]
        exact Nat.sub_le ..
      next => exact Nat.le_refl _

/-- A pass moves as soon as one of the gaps begins the text. -/
theorem dropGaps_shorter {listed : List Bytes} {text : Bytes} (begins : GapBegins listed text) :
    (dropGaps listed text).length < text.length := by
  induction listed generalizing text with
  | nil =>
      obtain ⟨gap, member, -⟩ := begins
      exact absurd member List.not_mem_nil
  | cons gap rest inductionHypothesis =>
      by_cases spelled : gap ≠ [] ∧ gap.isPrefixOf text = true
      · have passed : dropGaps (gap :: rest) text = dropGaps rest (text.drop gap.length) := by
          rw [dropGaps, List.foldl_cons, if_pos spelled]
          rfl
        rw [passed]
        apply Nat.lt_of_le_of_lt (length_dropGaps_le rest _)
        have within := (List.isPrefixOf_iff_prefix.mp spelled.2).length_le
        have visible := List.length_pos_of_ne_nil spelled.1
        rw [List.length_drop]
        exact Nat.sub_lt (Nat.lt_of_lt_of_le visible within) visible
      · have kept : dropGaps (gap :: rest) text = dropGaps rest text := by
          rw [dropGaps, List.foldl_cons, if_neg spelled]
          rfl
        rw [kept]
        obtain ⟨other, member, visible, leading⟩ := begins
        rcases List.mem_cons.mp member with rfl | later
        · exact absurd ⟨visible, List.isPrefixOf_iff_prefix.mpr leading⟩ spelled
        · exact inductionHypothesis ⟨other, later, visible, leading⟩

theorem dropGaps_of_not_begins {listed : List Bytes} {text : Bytes}
    (none : ¬ GapBegins listed text) : dropGaps listed text = text := by
  induction listed with
  | nil => rfl
  | cons gap rest inductionHypothesis =>
      have blocked : ¬ (gap ≠ [] ∧ gap.isPrefixOf text = true) := fun spelled =>
        none ⟨gap, List.mem_cons_self, spelled.1, List.isPrefixOf_iff_prefix.mp spelled.2⟩
      rw [dropGaps, List.foldl_cons, if_neg blocked]
      apply inductionHypothesis
      rintro ⟨other, member, begins⟩
      exact none ⟨other, List.mem_cons_of_mem _ member, begins⟩

theorem length_skipGaps_le (gaps : List Bytes) (text : Bytes) :
    (skipGaps gaps text).length ≤ text.length := by
  induction text using skipGaps.induct gaps with
  | case1 text next shorter inductionHypothesis =>
      rw [skipGaps, if_pos shorter]
      exact Nat.le_trans inductionHypothesis (Nat.le_of_lt shorter)
  | case2 text next same =>
      have unmoved : skipGaps gaps text = text := by rw [skipGaps, if_neg same]
      exact Nat.le_of_eq (congrArg List.length unmoved)

theorem skipGaps_of_not_begins {text : Bytes} (none : ¬ GapBegins gaps text) :
    skipGaps gaps text = text := by
  rw [skipGaps, dropGaps_of_not_begins none, if_neg (Nat.lt_irrefl _)]

theorem skipGaps_shorter {text : Bytes} (begins : GapBegins gaps text) :
    (skipGaps gaps text).length < text.length := by
  have shorter := dropGaps_shorter begins
  rw [skipGaps, if_pos shorter]
  exact Nat.lt_of_le_of_lt (length_skipGaps_le gaps _) shorter

/-! ## A text whose gaps are met where they stand -/

/-- The whole text is passed as gaps, or gaps begin only where nothing but gaps is left. -/
def GapsTrail (gaps : List Bytes) (tail : Bytes) : Prop :=
  skipGaps gaps tail = [] ∨
    ∀ rest, rest <:+ tail → GapBegins gaps rest → skipGaps gaps rest = []

/-- An id that spells the front of what is left goes on with the gaps behind it passed. -/
theorem walk_agrees {total index : Nat} {id : Int} {others : List Int} {later : Bytes}
    (seen : decode id ≠ []) :
    reseamJoin.walk decode gaps total (id :: others) (decode id ++ later) index =
      if skipGaps gaps later = [] then .ok (index + 1)
      else reseamJoin.walk decode gaps total others (skipGaps gaps later) (index + 1) := by
  have fits : ¬ (decode id ++ later).length < (decode id).length := by
    rw [List.length_append]
    exact Nat.not_lt.mpr (Nat.le_add_right ..)
  rw [reseamJoin.walk, if_neg seen, if_neg fits, List.take_left, if_pos rfl, List.drop_left]

theorem walk_fires {total index count : Nat} {incoming : List Int} {remaining : Bytes}
    (visible : ∀ id ∈ incoming, decode id ≠ [])
    (spelled : (incoming.take count).flatMap decode = remaining) (left : remaining ≠ [])
    (trailing : ∀ rest, rest <:+ remaining → GapBegins gaps rest → skipGaps gaps rest = []) :
    ∃ j, reseamJoin.walk decode gaps total incoming remaining index = .ok j := by
  induction incoming generalizing count remaining index with
  | nil =>
      rw [List.take_nil] at spelled
      exact absurd spelled.symm left
  | cons id others inductionHypothesis =>
      cases count with
      | zero => exact absurd spelled.symm left
      | succ count =>
          rw [List.take_succ_cons, List.flatMap_cons] at spelled
          subst spelled
          set later := (others.take count).flatMap decode with later_eq
          have seen := visible id List.mem_cons_self
          rw [walk_agrees seen]
          have behind : later <:+ decode id ++ later := List.suffix_append ..
          by_cases begins : GapBegins gaps later
          · rw [if_pos (trailing later behind begins)]
            exact ⟨_, rfl⟩
          · rw [skipGaps_of_not_begins begins]
            split
            next => exact ⟨_, rfl⟩
            next more =>
              apply inductionHypothesis (fun other member =>
                visible other (List.mem_cons_of_mem _ member)) later_eq.symm more
              exact fun rest suffix => trailing rest (suffix.trans behind)

theorem join_fires {committedTail incoming : List Int} {count : Nat} {tail : Bytes}
    (trail : GapsTrail gaps tail) (nonempty : tail ≠ []) (bounded : tail.length ≤ 1048576)
    (committed : committedTail.flatMap decode = tail)
    (visible : ∀ id ∈ incoming, decode id ≠ [])
    (spelled : (incoming.take count).flatMap decode = tail) :
    ∃ j, reseamJoin decode committedTail incoming gaps = .ok j := by
  rw [reseamJoin, committed, if_neg (Nat.not_lt.mpr bounded), if_neg nonempty]
  dsimp only
  split
  next => exact ⟨0, rfl⟩
  next more =>
    have trailing := trail.resolve_left more
    have still : ¬ GapBegins gaps tail := fun begins =>
      more (trailing tail List.suffix_rfl begins)
    rw [skipGaps_of_not_begins still]
    exact walk_fires visible spelled nonempty trailing

/-! ## A text with a gap in the middle -/

/-- An id longer than what the skipping left is refused. -/
theorem walk_straddles {total index : Nat} {id : Int} {others : List Int} {remaining : Bytes}
    (longer : remaining.length < (decode id).length) :
    reseamJoin.walk decode gaps total (id :: others) remaining index =
      .error (.straddles index (total - remaining.length)) := by
  have seen : decode id ≠ [] := List.ne_nil_of_length_pos (Nat.zero_lt_of_lt longer)
  rw [reseamJoin.walk, if_neg seen, if_pos longer]

/-- Id 0 spells the whole text, ids 1 and 2 its two sides. -/
def splitSpelling (front back : Bytes) : Decode := fun id =>
  if id = 1 then front else if id = 2 then back else front ++ back

theorem join_refuses_gap_in_front {tail : Bytes} (begins : GapBegins gaps tail)
    (more : skipGaps gaps tail ≠ []) (bounded : tail.length ≤ 1048576) :
    ∀ j, reseamJoin (splitSpelling [] tail) [0] [0] gaps ≠ .ok j := by
  intro j joined
  have shorter := skipGaps_shorter begins
  have nonempty : tail ≠ [] := List.ne_nil_of_length_pos (Nat.zero_lt_of_lt shorter)
  have text : [(0 : Int)].flatMap (splitSpelling [] tail) = tail := List.append_nil tail
  rw [reseamJoin, text, if_neg (Nat.not_lt.mpr bounded), if_neg nonempty, if_neg more,
    walk_straddles shorter] at joined
  cases joined

theorem join_refuses_gap_inside {front back : Bytes} (seen : front ≠ [])
    (still : ¬ GapBegins gaps (front ++ back)) (begins : GapBegins gaps back)
    (more : skipGaps gaps back ≠ []) (bounded : (front ++ back).length ≤ 1048576) :
    ∀ j, reseamJoin (splitSpelling front back) [0] [1, 2] gaps ≠ .ok j := by
  intro j joined
  have shorter := skipGaps_shorter begins
  have nonempty : front ++ back ≠ [] := List.append_ne_nil_of_left_ne_nil seen back
  have text : [(0 : Int)].flatMap (splitSpelling front back) = front ++ back := List.append_nil _
  have first : splitSpelling front back 1 = front := rfl
  have met := @walk_agrees (splitSpelling front back) gaps (front ++ back).length 0 1 [2] back seen
  have refused := @walk_straddles (splitSpelling front back) gaps (front ++ back).length 1 2 []
    (skipGaps gaps back) shorter
  rw [first, if_neg more, refused] at met
  rw [reseamJoin, text, if_neg (Nat.not_lt.mpr bounded), if_neg nonempty,
    skipGaps_of_not_begins still, if_neg nonempty, met] at joined
  cases joined

/-- Ids 0 to 3 spell one word in two ways, 4 ends a turn and 5 begins the next. -/
def turnSpelling : Decode := fun id =>
  (["he".toUTF8.toList, "llo".toUTF8.toList, "hel".toUTF8.toList, "lo".toUTF8.toList,
    "<turn|>\n".toUTF8.toList, "<|turn>user\n".toUTF8.toList] : List Bytes).getD id.toNat []

end KairosEngine.Daemon
