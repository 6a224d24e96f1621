import KairosEngine.Library.Loop
import Mathlib.Data.List.Dedup

/-!
# The tool mask

Behind a fence the mask lists the tokens that continue the tokenisation of some tool name.  Once a
name is complete and no other continues it, it lists nothing and leaves the sampler alone.
-/

namespace KairosEngine.Daemon

open KairosEngine.Library

inductive MaskState
  | prose
  | name
  | args
  deriving DecidableEq

/-- `(` and the backtick. -/
def parenByte : UInt8 := 40

def tickByte : UInt8 := 96

structure ToolMask where
  names : List (List Int)
  fence : List Int
  hist : List Int
  state : MaskState
  depth : Nat
  maskedSteps : Nat
  forcedSteps : Nat

namespace ToolMask

/-- `encode` of the fence is handed over as a value. -/
def new (toolNames : List (List UInt8)) (encode : List UInt8 → List Int) (fence : List Int) :
    ToolMask where
  names := (toolNames.map encode).filter (· ≠ [])
  fence := fence
  hist := []
  state := .prose
  depth := 0
  maskedSteps := 0
  forcedSteps := 0

def enabled (mask : ToolMask) : Bool := !mask.names.isEmpty && !mask.fence.isEmpty

def prefixOk (mask : ToolMask) (name : List Int) : Bool :=
  if name.length < mask.depth then false
  else mask.hist.drop (mask.hist.length - mask.depth) == name.take mask.depth

def push (mask : ToolMask) (id : Int) (piece : List UInt8) : ToolMask :=
  let mask := { mask with hist := mask.hist ++ [id] }
  match mask.state with
  | .prose =>
      if mask.fence.length ≤ mask.hist.length ∧
          mask.hist.drop (mask.hist.length - mask.fence.length) = mask.fence then
        { mask with state := .name, depth := 0 }
      else mask
  | .name =>
      let mask := { mask with depth := mask.depth + 1 }
      if parenByte ∈ piece then { mask with state := .args }
      else if mask.names.all fun name => !mask.prefixOk name then { mask with state := .prose }
      else mask
  | .args => if tickByte ∈ piece then { mask with state := .prose } else mask

/-- The ids the sampler may emit next, if they are constrained; the order of a hash set is not
kept. -/
def allowed (mask : ToolMask) : Option (List Int) × ToolMask :=
  if mask.state ≠ .name ∨ mask.enabled = false then (none, mask)
  else
    let ids := mask.names.filterMap fun name =>
      if mask.depth < name.length ∧ mask.prefixOk name then name[mask.depth]? else none
    if ids.isEmpty then (none, mask)
    else (some ids.dedup, { mask with maskedSteps := mask.maskedSteps + 1 })

/-- The only id that may come next. -/
def forced (mask : ToolMask) : Option Int × ToolMask :=
  match mask.allowed with
  | (some [id], mask) =>
      (some id, { mask with
        maskedSteps := mask.maskedSteps - 1
        forcedSteps := mask.forcedSteps + 1 })
  | (_, mask) => (none, mask)

/-! ## Spelling a name -/

/-- The mask is constraining, and the tokens stand behind the fence. -/
structure Spelling (mask : ToolMask) (tokens : List Int) : Prop where
  state : mask.state = .name
  hist : ∃ before, mask.hist = before ++ tokens
  depth : mask.depth = tokens.length

variable {mask : ToolMask} {tokens name : List Int} {id : Int} {piece : List UInt8}

theorem Spelling.prefixOk_iff (spelling : mask.Spelling tokens) (name : List Int) :
    mask.prefixOk name = true ↔ tokens <+: name := by
  obtain ⟨_, ⟨before, hist⟩, depth⟩ := spelling
  have back : mask.hist.drop (mask.hist.length - mask.depth) = tokens := by
    rw [hist, depth, List.length_append, Nat.add_sub_cancel, List.drop_left]
  rw [prefixOk, back, depth]
  by_cases short : name.length < tokens.length
  · rw [if_pos short]
    refine iff_of_false nofun fun extends_ => ?_
    exact absurd extends_.length_le (Nat.not_le.mpr short)
  · rw [if_neg short, beq_iff_eq, List.prefix_iff_eq_take]

theorem Spelling.mem_ids (spelling : mask.Spelling tokens) (id : Int) :
    (id ∈ mask.names.filterMap fun name =>
        if mask.depth < name.length ∧ mask.prefixOk name then name[mask.depth]? else none) ↔
      ∃ name ∈ mask.names, tokens ++ [id] <+: name := by
  rw [List.mem_filterMap]
  refine exists_congr fun name => and_congr_right fun _ => ?_
  simp only [spelling.prefixOk_iff, spelling.depth]
  constructor
  · intro found
    split at found
    next longer =>
      obtain ⟨rest, rfl⟩ := longer.2
      rw [List.getElem?_append_right (Nat.le_refl _), Nat.sub_self] at found
      cases rest with
      | nil => cases found
      | cons head rest =>
          cases found
          exact ⟨rest, List.append_assoc _ _ _⟩
    next => cases found
  · rintro ⟨rest, rfl⟩
    have longer : tokens.length < (tokens ++ [id] ++ rest).length := by
      simp only [List.length_append, List.length_singleton]
      omega
    rw [if_pos ⟨longer, [id] ++ rest, (List.append_assoc _ _ _).symm⟩, List.append_assoc,
      List.getElem?_append_right (Nat.le_refl _), Nat.sub_self]
    rfl

/-- What the mask lists are the continuations of the names that begin with the tokens. -/
theorem Spelling.allowed_some (spelling : mask.Spelling tokens) {ids : List Int}
    (listed : mask.allowed.1 = some ids) (id : Int) :
    id ∈ ids ↔ ∃ name ∈ mask.names, tokens ++ [id] <+: name := by
  rw [← spelling.mem_ids]
  unfold allowed at listed
  split at listed
  next => cases listed
  next =>
    simp only at listed
    split at listed
    next => cases listed
    next =>
      cases listed
      exact List.mem_dedup

theorem Spelling.allowed_none (spelling : mask.Spelling tokens) (on : mask.enabled = true) :
    mask.allowed.1 = none ↔ ∀ name ∈ mask.names, ∀ id, ¬tokens ++ [id] <+: name := by
  have ids := spelling.mem_ids
  have running : ¬(mask.state ≠ .name ∨ mask.enabled = false) := by
    rw [spelling.state, on]
    simp
  unfold allowed
  rw [if_neg running]
  simp only
  generalize mask.names.filterMap (fun name =>
    if mask.depth < name.length ∧ mask.prefixOk name then name[mask.depth]? else none) = found
    at ids
  cases found with
  | nil =>
      refine iff_of_true rfl fun name member id extends_ => ?_
      exact absurd ((ids id).mpr ⟨name, member, extends_⟩) List.not_mem_nil
  | cons head rest =>
      refine iff_of_false nofun fun nothing => ?_
      obtain ⟨name, member, extends_⟩ := (ids head).mp List.mem_cons_self
      exact nothing name member head extends_

theorem push_names (mask : ToolMask) (id : Int) (piece : List UInt8) :
    (mask.push id piece).names = mask.names ∧ (mask.push id piece).fence = mask.fence := by
  simp only [push]
  repeat' split
  all_goals exact ⟨rfl, rfl⟩

/-- A token that continues some name is one more token of the spelling. -/
theorem Spelling.push (spelling : mask.Spelling tokens) (plain : parenByte ∉ piece)
    (continues : ∃ name ∈ mask.names, tokens ++ [id] <+: name) :
    (mask.push id piece).Spelling (tokens ++ [id]) := by
  obtain ⟨state, ⟨before, hist⟩, depth⟩ := spelling
  obtain ⟨name, member, extends_⟩ := continues
  let pushed : ToolMask :=
    { mask with hist := mask.hist ++ [id], state := .name, depth := mask.depth + 1 }
  have after : pushed.Spelling (tokens ++ [id]) := by
    refine ⟨rfl, ⟨before, ?_⟩, ?_⟩
    · rw [← List.append_assoc, ← hist]
    · rw [List.length_append, List.length_singleton, ← depth]
  have legal : ¬(pushed.names.all fun name => !pushed.prefixOk name) = true := by
    intro lost
    have none := List.all_eq_true.mp lost name member
    rw [Bool.not_eq_true', (after.prefixOk_iff name).mpr extends_] at none
    cases none
  have same : mask.push id piece = pushed := by
    simp only [ToolMask.push, state, if_neg plain]
    split
    next lost => exact absurd lost legal
    next => rfl
  rw [same]
  exact after

/-- A `(` ends the name. -/
theorem Spelling.push_paren (spelling : mask.Spelling tokens) (paren : parenByte ∈ piece) :
    (mask.push id piece).state = .args := by
  simp only [ToolMask.push, spelling.state, if_pos paren]

/-! ## Runs that obey the mask -/

variable {pieceOf : Int → List UInt8}

def step (pieceOf : Int → List UInt8) (id : Int) (mask : ToolMask) : ToolMask :=
  mask.push id (pieceOf id)

/-- The id is among those listed, where any are. -/
def Obeys (id : Int) (mask : ToolMask) : Prop := ∀ ids, mask.allowed.1 = some ids → id ∈ ids

instance Obeys.decidable (id : Int) (mask : ToolMask) : Decidable (Obeys id mask) :=
  match listed : mask.allowed.1 with
  | none => .isTrue fun ids same => by
      rw [listed] at same
      cases same
  | some found =>
      decidable_of_iff (id ∈ found) ⟨fun member ids same => by
        rw [listed, Option.some.injEq] at same
        exact same ▸ member, fun obeys => obeys found listed⟩

/-- Behind a fence a token that the mask lists carries no `(`, and the token that is taken where
the mask lists nothing begins with one. -/
def CallsAtOnce (pieceOf : Int → List UInt8) (id : Int) (mask : ToolMask) : Prop :=
  mask.state = .name →
    (mask.allowed.1 ≠ none → parenByte ∉ pieceOf id) ∧
      (mask.allowed.1 = none → mask.enabled = true ∧ (pieceOf id).head? = some parenByte)

instance CallsAtOnce.decidable (pieceOf : Int → List UInt8) (id : Int) (mask : ToolMask) :
    Decidable (CallsAtOnce pieceOf id mask) :=
  inferInstanceAs (Decidable (_ → _ ∧ _))

theorem serveAll_names (run : List Int) (mask : ToolMask) :
    (serveAll (step pieceOf) run mask).names = mask.names ∧
      (serveAll (step pieceOf) run mask).fence = mask.fence := by
  induction run generalizing mask with
  | nil => exact ⟨rfl, rfl⟩
  | cons id rest inductionHypothesis =>
      obtain ⟨names, fence⟩ := inductionHypothesis (step pieceOf id mask)
      obtain ⟨pushedNames, pushedFence⟩ := push_names mask id (pieceOf id)
      exact ⟨names.trans pushedNames, fence.trans pushedFence⟩

/-- The tokens up to the first `(` are those of a name, and the token with it begins with it. -/
theorem Spelling.spells_name (spelling : mask.Spelling tokens)
    (legal : tokens = [] ∨ ∃ name ∈ mask.names, tokens <+: name) {body : List Int} {last : Int}
    (guarded : GuardedRun (step pieceOf)
      (fun id mask => Obeys id mask ∧ CallsAtOnce pieceOf id mask) (body ++ [last]) mask)
    (plain : ∀ id ∈ body, parenByte ∉ pieceOf id) (paren : parenByte ∈ pieceOf last) :
    tokens ++ body ∈ mask.names ∧ (pieceOf last).head? = some parenByte := by
  induction body generalizing mask tokens with
  | nil =>
      obtain ⟨⟨_, calls⟩, _⟩ := guarded
      obtain ⟨within, behind⟩ := calls spelling.state
      cases listed : mask.allowed.1 with
      | some ids => exact absurd paren (within (listed ▸ nofun))
      | none =>
          obtain ⟨on, head⟩ := behind listed
          refine ⟨?_, head⟩
          rw [List.append_nil]
          have ends := (spelling.allowed_none on).mp listed
          have begins : ∃ name ∈ mask.names, tokens <+: name := by
            rcases legal with rfl | found
            · obtain ⟨name, member⟩ : ∃ name, name ∈ mask.names := by
                rw [enabled, Bool.and_eq_true, Bool.not_eq_true', List.isEmpty_eq_false_iff] at on
                exact List.exists_mem_of_ne_nil _ on.1
              exact ⟨name, member, List.nil_prefix⟩
            · exact found
          obtain ⟨name, member, rest, rfl⟩ := begins
          cases rest with
          | nil =>
              rw [List.append_nil] at member
              exact member
          | cons id rest =>
              exact absurd ⟨rest, List.append_assoc _ _ _⟩ (ends _ member id)
  | cons id rest inductionHypothesis =>
      obtain ⟨⟨obeys, calls⟩, later⟩ := guarded
      obtain ⟨_, behind⟩ := calls spelling.state
      have here := plain id List.mem_cons_self
      cases listed : mask.allowed.1 with
      | none => exact absurd (List.mem_of_mem_head? (behind listed).2) here
      | some ids =>
          obtain ⟨name, member, continues⟩ :=
            (spelling.allowed_some listed id).mp (obeys ids listed)
          have pushed := spelling.push here ⟨name, member, continues⟩
          have names := (push_names mask id (pieceOf id)).1
          have spelled := inductionHypothesis pushed
            (Or.inr ⟨name, names.symm ▸ member, continues⟩) later
            fun other inRest => plain other (List.mem_cons_of_mem _ inRest)
          rw [names, List.append_assoc] at spelled
          exact spelled

/-- A fence opens the mask with nothing spelled yet. -/
theorem spelling_opened (opens : (mask.push id piece).state = .name) (talking : mask.state = .prose) :
    (mask.push id piece).Spelling [] := by
  simp only [push, talking] at opens ⊢
  split at opens
  next fenced =>
    rw [if_pos fenced]
    exact ⟨rfl, ⟨_, (List.append_nil _).symm⟩, rfl⟩
  next => cases opens

/-- In an obeying run whose calls follow their names at once, the bytes between a fence and the next
`(` are the name of a tool. -/
theorem calls_existing_tool {toolNames : List (List UInt8)} {encode : List UInt8 → List Int}
    {fence : List Int} (spells : ∀ name ∈ toolNames, (encode name).flatMap pieceOf = name)
    {before body after : List Int} {opener last : Int}
    (guarded : GuardedRun (step pieceOf)
      (fun id mask => Obeys id mask ∧ CallsAtOnce pieceOf id mask)
      (before ++ opener :: (body ++ last :: after)) (new toolNames encode fence))
    (talking :
      (serveAll (step pieceOf) before (new toolNames encode fence)).state = .prose)
    (opens : (step pieceOf opener
      (serveAll (step pieceOf) before (new toolNames encode fence))).state = .name)
    (plain : ∀ id ∈ body, parenByte ∉ pieceOf id) (paren : parenByte ∈ pieceOf last) :
    body.flatMap pieceOf ++ (pieceOf last).takeWhile (· ≠ parenByte) ∈ toolNames := by
  obtain ⟨_, _, fenced⟩ := GuardedRun.append_iff.mp guarded
  rw [List.append_cons] at fenced
  obtain ⟨call, _⟩ := GuardedRun.append_iff.mp fenced
  obtain ⟨spelled, head⟩ := (spelling_opened opens talking).spells_name (Or.inl rfl) call plain paren
  have names : (step pieceOf opener
      (serveAll (step pieceOf) before (new toolNames encode fence))).names =
        (toolNames.map encode).filter (· ≠ []) :=
    (push_names _ _ _).1.trans (serveAll_names before _).1
  have begins : (pieceOf last).takeWhile (· ≠ parenByte) = [] := by
    cases bytes : pieceOf last with
    | nil => rfl
    | cons byte rest =>
        rw [bytes, List.head?_cons, Option.some.injEq] at head
        rw [head, List.takeWhile_cons]
        simp
  rw [step] at names
  rw [names, List.nil_append, List.mem_filter, List.mem_map] at spelled
  obtain ⟨⟨name, member, rfl⟩, _⟩ := spelled
  rw [begins, List.append_nil, spells name member]
  exact member

/-- Every byte is a token, and so is the text of the fence. -/
def byteVocabulary (id : Int) : List UInt8 :=
  if id = 1000 then [96, 96, 96, 116, 111, 111, 108, 95, 99, 111, 100, 101, 10]
  else [UInt8.ofNat id.toNat]

def byteTokens (name : List UInt8) : List Int := name.map fun byte => (byte.toNat : Int)

/-- The tool `go` is called. -/
theorem calls_existing_tool_go :
    [103, 111].flatMap byteVocabulary ++ (byteVocabulary 40).takeWhile (· ≠ parenByte) ∈
      [[103, 111]] :=
  @calls_existing_tool byteVocabulary [[103, 111]] byteTokens [1000] (by decide) [] [103, 111] []
    1000 40 (by decide) (by decide) (by decide) (by decide) (by decide)

/-- Behind the complete name `go` nothing is listed, and `gox` is called. -/
theorem calls_unknown_tool :
    GuardedRun (step byteVocabulary) Obeys ([] ++ 1000 :: ([103, 111, 120] ++ 40 :: []))
        (new [[103, 111]] byteTokens [1000]) ∧
      (serveAll (step byteVocabulary) [] (new [[103, 111]] byteTokens [1000])).state = .prose ∧
      (step byteVocabulary 1000
        (serveAll (step byteVocabulary) [] (new [[103, 111]] byteTokens [1000]))).state = .name ∧
      (∀ id ∈ [103, 111, 120], parenByte ∉ byteVocabulary id) ∧
      parenByte ∈ byteVocabulary 40 ∧
      [103, 111, 120].flatMap byteVocabulary ++
          (byteVocabulary 40).takeWhile (· ≠ parenByte) ∉ [[103, 111]] := by decide

/-! ## Which names can be called -/

/-- After the fence there is an obeying run of the name's tokens and a `(`. -/
def Reachable (pieceOf : Int → List UInt8) (mask : ToolMask) (name : List Int) : Prop :=
  ∃ paren, pieceOf paren = [parenByte] ∧
    GuardedRun (step pieceOf) Obeys (name ++ [paren]) mask

/-- No other name goes on behind the name, unless one goes on with a `(`.  In a name that has a
`(` of its own the mask lets through what stands before it, and the rest is left to the arguments. -/
def Callable (pieceOf : Int → List UInt8) (mask : ToolMask) (name : List Int) : Prop :=
  mask.fence = [] ∨
    ((∀ id ∈ name, parenByte ∉ pieceOf id) ∧
      ((∀ other ∈ mask.names, name <+: other → other = name) ∨
        ∃ other ∈ mask.names, ∃ paren, pieceOf paren = [parenByte] ∧ name ++ [paren] <+: other)) ∨
    ∃ front id back, name = front ++ id :: back ∧ (∀ other ∈ front, parenByte ∉ pieceOf other) ∧
      parenByte ∈ pieceOf id ∧ ∃ paren, pieceOf paren = [parenByte] ∧
        GuardedRun (step pieceOf) Obeys (back ++ [paren])
          (serveAll (step pieceOf) (front ++ [id]) mask)

theorem allowed_off (off : mask.enabled = false) : mask.allowed.1 = none := by
  rw [allowed, if_pos (Or.inr off)]

theorem push_enabled (mask : ToolMask) (id : Int) (piece : List UInt8) :
    (mask.push id piece).enabled = mask.enabled := by
  obtain ⟨names, fence⟩ := push_names mask id piece
  rw [enabled, enabled, names, fence]

theorem obeys_off {run : List Int} (off : mask.enabled = false) :
    GuardedRun (step pieceOf) Obeys run mask := by
  induction run generalizing mask with
  | nil => trivial
  | cons id rest inductionHypothesis =>
      refine ⟨fun ids listed => ?_, inductionHypothesis ((push_enabled _ _ _).trans off)⟩
      rw [allowed_off off] at listed
      cases listed

/-- Within the arguments nothing is listed before a backtick. -/
theorem obeys_args {run : List Int} (args : mask.state = .args)
    (unclosed : ∀ id ∈ run.dropLast, tickByte ∉ pieceOf id) :
    GuardedRun (step pieceOf) Obeys run mask := by
  induction run generalizing mask with
  | nil => trivial
  | cons id rest inductionHypothesis =>
      refine ⟨fun ids listed => ?_, ?_⟩
      · have talking : mask.state ≠ .name := by
          rw [args]
          nofun
        rw [allowed, if_pos (Or.inl talking)] at listed
        cases listed
      · cases rest with
        | nil => trivial
        | cons next rest =>
            have inside := unclosed id List.mem_cons_self
            apply inductionHypothesis
            · simp only [step, push, args, if_neg inside]
            · exact fun other member => unclosed other (List.mem_cons_of_mem _ member)

/-- Along a name every token before the first `(` is listed. -/
theorem Spelling.obeys_name (spelling : mask.Spelling tokens) {rest : List Int}
    (begins : ∃ name ∈ mask.names, tokens ++ rest <+: name)
    (plain : ∀ id ∈ rest, parenByte ∉ pieceOf id) :
    GuardedRun (step pieceOf) Obeys rest mask ∧
      (serveAll (step pieceOf) rest mask).Spelling (tokens ++ rest) := by
  induction rest generalizing mask tokens with
  | nil =>
      rw [List.append_nil]
      exact ⟨trivial, spelling⟩
  | cons id rest inductionHypothesis =>
      rw [List.append_cons] at begins ⊢
      obtain ⟨name, member, fits⟩ := begins
      have continues : ∃ name ∈ mask.names, tokens ++ [id] <+: name :=
        ⟨name, member, (List.prefix_append _ _).trans fits⟩
      have names := (push_names mask id (pieceOf id)).1
      obtain ⟨obeys, spelled⟩ := inductionHypothesis
        (spelling.push (plain id List.mem_cons_self) continues) ⟨name, names.symm ▸ member, fits⟩
        fun other inRest => plain other (List.mem_cons_of_mem _ inRest)
      exact ⟨⟨fun ids listed => (spelling.allowed_some listed id).mpr continues, obeys⟩, spelled⟩

/-- Nothing is listed behind a name that no other continues. -/
theorem Spelling.obeys_last (spelling : mask.Spelling name) (on : mask.enabled = true) (paren : Int) :
    Obeys paren mask ↔
      (∀ other ∈ mask.names, name <+: other → other = name) ∨
        ∃ other ∈ mask.names, name ++ [paren] <+: other := by
  cases listed : mask.allowed.1 with
  | none =>
      have ends := (spelling.allowed_none on).mp listed
      refine iff_of_true (fun ids same => ?_) (Or.inl fun other member longer => ?_)
      · rw [listed] at same
        cases same
      · obtain ⟨rest, rfl⟩ := longer
        cases rest with
        | nil => exact List.append_nil name
        | cons id rest => exact absurd ⟨rest, List.append_assoc _ _ _⟩ (ends _ member id)
  | some ids =>
      have continues := spelling.allowed_some listed
      constructor
      · intro obeys
        exact Or.inr ((continues paren).mp (obeys ids listed))
      · rintro (alone | longer)
        · have ends : mask.allowed.1 = none := by
            rw [spelling.allowed_none on]
            intro other member id fits
            have same := alone other member ((List.prefix_append _ _).trans fits)
            have lengths := fits.length_le
            rw [same, List.length_append, List.length_singleton] at lengths
            omega
          rw [listed] at ends
          cases ends
        · intro others same
          rw [listed, Option.some.injEq] at same
          exact same ▸ (continues paren).mpr longer

/-- Right behind the fence a name can be called exactly where it is not cut off by a longer one. -/
theorem reachable_iff {paren : Int} (vocabulary : pieceOf paren = [parenByte])
    (spelling : mask.Spelling []) (member : name ∈ mask.names) :
    Reachable pieceOf mask name ↔ Callable pieceOf mask name := by
  by_cases off : mask.enabled = false
  · have fenceless : mask.fence = [] := by
      have some := List.ne_nil_of_mem member
      rw [enabled, List.isEmpty_eq_false_iff.mpr some] at off
      simpa using off
    exact iff_of_true ⟨paren, vocabulary, obeys_off off⟩ (Or.inl fenceless)
  · have on : mask.enabled = true := Bool.not_eq_false _ ▸ off
    have fenced : mask.fence ≠ [] := by
      rw [enabled, Bool.and_eq_true, Bool.not_eq_true', Bool.not_eq_true',
        List.isEmpty_eq_false_iff, List.isEmpty_eq_false_iff] at on
      exact on.2
    by_cases plain : ∀ id ∈ name, parenByte ∉ pieceOf id
    · obtain ⟨obeys, spelled⟩ := spelling.obeys_name ⟨name, member, List.prefix_rfl⟩ plain
      obtain ⟨names, fence⟩ := @serveAll_names pieceOf name mask
      have still : (serveAll (step pieceOf) name mask).enabled = true := by
        rw [enabled, names, fence]
        exact on
      have last := fun other => spelled.obeys_last still other
      rw [names] at last
      constructor
      · rintro ⟨other, bytes, guarded⟩
        obtain ⟨_, call, _⟩ := GuardedRun.append_iff.mp guarded
        refine Or.inr (Or.inl ⟨plain, ?_⟩)
        exact ((last other).mp call).imp id fun ⟨longer, inside, fits⟩ =>
          ⟨longer, inside, other, bytes, fits⟩
      · rintro (none | ⟨_, alone | ⟨longer, inside, other, bytes, fits⟩⟩ |
          ⟨front, id, back, rfl, _, carries, _⟩)
        · exact absurd none fenced
        · exact ⟨paren, vocabulary, GuardedRun.append_iff.mpr
            ⟨obeys, (last paren).mpr (Or.inl alone), trivial⟩⟩
        · exact ⟨other, bytes, GuardedRun.append_iff.mpr
            ⟨obeys, (last other).mpr (Or.inr ⟨longer, inside, fits⟩), trivial⟩⟩
        · exact absurd carries (plain id (List.mem_append_right _ List.mem_cons_self))
    · obtain ⟨id, inside, carries⟩ : ∃ id ∈ name, parenByte ∈ pieceOf id := by
        simpa using plain
      constructor
      · rintro ⟨other, bytes, guarded⟩
        obtain ⟨first, found⟩ := Option.isSome_iff_exists.mp (@List.find?_isSome _ name
          (fun id => decide (parenByte ∈ pieceOf id)) |>.mpr ⟨id, inside, decide_eq_true carries⟩)
        obtain ⟨here, front, back, split, before⟩ := List.find?_eq_some_iff_append.mp found
        refine Or.inr (Or.inr ⟨front, first, back, split, fun early member => ?_,
          of_decide_eq_true here, other, bytes, ?_⟩)
        · simpa using before early member
        · rw [split, List.append_assoc, List.cons_append, List.append_cons] at guarded
          exact (GuardedRun.append_iff.mp guarded).2
      · rintro (none | ⟨free, _⟩ | ⟨front, first, back, split, before, here, other, bytes, rest⟩)
        · exact absurd none fenced
        · exact absurd carries (free id inside)
        · have fits : ∃ name ∈ mask.names, [] ++ front <+: name :=
            ⟨name, member, split ▸ List.prefix_append _ _⟩
          obtain ⟨obeys, spelled⟩ := spelling.obeys_name fits before
          have continues : ∃ name ∈ (serveAll (step pieceOf) front mask).names,
              [] ++ front ++ [first] <+: name := by
            refine ⟨name, (serveAll_names front mask).1.symm ▸ member, ?_⟩
            rw [split, List.nil_append]
            exact ⟨back, List.append_assoc _ _ _⟩
          refine ⟨other, bytes, ?_⟩
          rw [split, List.append_assoc, List.cons_append, List.append_cons]
          refine GuardedRun.append_iff.mpr ⟨GuardedRun.append_iff.mpr ⟨obeys, ?_, trivial⟩, rest⟩
          exact fun ids listed => (spelled.allowed_some listed first).mpr continues

/-- A `(` of its own does not keep a name from being called, if no backtick follows it. -/
theorem callable_of_paren {paren : Int} (vocabulary : pieceOf paren = [parenByte])
    (spelling : mask.Spelling []) (member : name ∈ mask.names) {front back : List Int}
    (split : name = front ++ id :: back) (before : ∀ other ∈ front, parenByte ∉ pieceOf other)
    (carries : parenByte ∈ pieceOf id) (unclosed : ∀ other ∈ back, tickByte ∉ pieceOf other) :
    Callable pieceOf mask name := by
  refine Or.inr (Or.inr ⟨front, id, back, split, before, carries, paren, vocabulary, ?_⟩)
  have fits : ∃ name ∈ mask.names, [] ++ front <+: name :=
    ⟨name, member, split ▸ List.prefix_append _ _⟩
  have spelled := (spelling.obeys_name fits before).2
  apply obeys_args
  · rw [serveAll_append]
    exact spelled.push_paren carries
  · rw [List.dropLast_concat]
    exact unclosed

/-- Every name of the mask can be called behind a fence exactly where none is cut off. -/
theorem reachable_behind_fence_iff {paren opener : Int} (vocabulary : pieceOf paren = [parenByte])
    (talking : mask.state = .prose) (opens : (step pieceOf opener mask).state = .name) :
    (∀ name ∈ mask.names, Reachable pieceOf (step pieceOf opener mask) name) ↔
      ∀ name ∈ mask.names, Callable pieceOf (step pieceOf opener mask) name := by
  have names := (push_names mask opener (pieceOf opener)).1
  refine forall₂_congr fun name member => ?_
  exact reachable_iff vocabulary (spelling_opened opens talking) (names.symm ▸ member)

/-- With the tools `go` and `gone` every run that spells `go` has to go on with `n`. -/
theorem go_unreachable :
    [103, 111] ∈ (new [[103, 111], [103, 111, 110, 101]] byteTokens [1000]).names ∧
      ¬Reachable byteVocabulary
        (step byteVocabulary 1000 (new [[103, 111], [103, 111, 110, 101]] byteTokens [1000]))
        [103, 111] := by
  refine ⟨by decide, fun reachable => ?_⟩
  obtain ⟨paren, bytes, _, _, obeys, _⟩ := reachable
  have listed := obeys [110] (by decide)
  rw [List.mem_singleton.mp listed] at bytes
  exact absurd bytes (by decide)

theorem reachable_behind_fence_go :
    (∀ name ∈ (new [[103, 111]] byteTokens [1000]).names,
        Reachable byteVocabulary
          (step byteVocabulary 1000 (new [[103, 111]] byteTokens [1000])) name) ↔
      ∀ name ∈ (new [[103, 111]] byteTokens [1000]).names,
        Callable byteVocabulary
          (step byteVocabulary 1000 (new [[103, 111]] byteTokens [1000])) name :=
  @reachable_behind_fence_iff (new [[103, 111]] byteTokens [1000]) byteVocabulary 40 1000
    (by decide) (by decide) (by decide)

end ToolMask

end KairosEngine.Daemon
