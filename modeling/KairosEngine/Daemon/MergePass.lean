import KairosEngine.Daemon.Lifecycle

/-!
# Merging two facts

Behind a captured fact the model may combine it with the most related memory.  The pass takes both
old texts out of the live set and the file first, comparing texts as they are spelled, and captures
the combined fact afterwards.
-/

namespace KairosEngine.Daemon

open KairosEngine.Library

/-! ## The reply -/

/-- The text in front of the first occurrence of a pattern. -/
def beforePattern (pattern : Text) : Text → Option Text
  | [] => if pattern.isPrefixOf [] then some [] else none
  | c :: rest =>
      if pattern.isPrefixOf (c :: rest) then some []
      else (beforePattern pattern rest).map (c :: ·)

/-- `str::get(offset..)` with an offset in bytes. -/
def textFrom : Nat → Text → Option Text
  | 0, text => some text
  | _ + 1, [] => none
  | offset + 1, c :: rest =>
      if c.utf8Size ≤ offset + 1 then textFrom (offset + 1 - c.utf8Size) rest else none

/-- The combined fact in the reply of the model, if it has one. -/
def mergeCombined (tables : Unicode) (mreply : Text) : Option Text :=
  let mtrim := tables.trim mreply
  (beforePattern "merge".toList (tables.toLowercase mtrim)).bind fun front =>
    if textContains "none".toList front then none
    else
      let rest := (textFrom (utf8Len front + 5) mtrim).getD []
      let bare := tables.trim (rest.dropWhile [':', '=', '-', '>', ' '].contains)
      let combined := tables.trim (trimMatches (fun c => decide (c = '"')) bare)
      if 4 ≤ combined.length then some combined else none

/-! ## The capture of the combined fact -/

/-- What the calls of `capture_live_episode` give. -/
structure CaptureCalls where
  encoded : Option (List Int)
  /-- The session has a model. -/
  resident : Bool
  dirMade : Bool
  batched : Bool
  globalK : Option (List Ieee × Nat)
  name : String
  dir : Text
  sig : List Bool
  l5key : List Ieee
  memClass : Option String
  persisted : Bool

/-- `capture_live_episode`. -/
def captureLiveEpisode (calls : CaptureCalls) (text : Text) (nonempty : text ≠ []) :
    Option Capture := do
  let tokens ← calls.encoded
  guard (4 ≤ tokens.length ∧ calls.resident = true ∧ calls.dirMade = true ∧ calls.batched = true)
  let (gk, gkNg) ← calls.globalK
  return {
    path := .liveEpisode
    said := text
    said_nonempty := nonempty
    name := calls.name
    dir := calls.dir
    tokens
    sig := calls.sig
    gk
    gkNg
    l5key := calls.l5key
    memClass := calls.memClass
    persisted := calls.persisted }

/-- Every call of the capture goes through. -/
def CaptureCalls.GoThrough (calls : CaptureCalls) : Prop :=
  (∃ tokens, calls.encoded = some tokens ∧ 4 ≤ tokens.length) ∧ calls.resident = true ∧
    calls.dirMade = true ∧ calls.batched = true ∧ calls.globalK.isSome = true

/-! ## The pass -/

/-- How the old episodes are dropped: removed by one rewrite of the file, or, under
`SP_MEM_LIFECYCLE`, marked by two. -/
inductive DropFates
  | forget (rewrites : Bool)
  | mark (fateA fateB : RewriteFate)

/-- `mark_superseded_registry` with lifecycle 1; the line a torn rewrite breaks off in does not
parse. -/
def RewriteFate.mark (fate : RewriteFate) (victim : Text) (lines : List RegistryLine) :
    List RegistryLine :=
  match fate with
  | .done => markSupersededRegistry victim 1 lines
  | .failed => lines
  | .torn count => (markSupersededRegistry victim 1 lines).take count ++ [.malformed]

def DropFates.live (fates : DropFates) (drops : List Text) (nightshift : List Memory) :
    List Memory :=
  match fates with
  | .forget _ => nightshift.filter fun memory => !drops.contains memory.ep.text
  | .mark _ _ => nightshift.map fun memory =>
      if drops.contains memory.ep.text then memory.withLifecycle 1 else memory

def DropFates.file (fates : DropFates) (dropA dropB : Text) (lines : List RegistryLine) :
    List RegistryLine :=
  match fates with
  | .forget rewrites => if rewrites then forgetRewrite [dropA, dropB] lines else lines
  | .mark fateA fateB => fateB.mark dropB (fateA.mark dropA lines)

/-- One run of the pass behind a captured fact. -/
structure MergeCall where
  newName : String
  newText : Text
  mreply : Text
  fates : DropFates
  capture : CaptureCalls

/-- What the pass leaves of the old memories, and the capture of the combined fact. -/
structure MergeEnd where
  kept : MemoryStore
  captured : Option Capture

def MergeEnd.final (ctx : MemoryContext) (ended : MergeEnd) : MemoryStore :=
  match ended.captured with
  | some added => ended.kept.capture ctx.classMap added
  | none => ended.kept

namespace MergeCall

variable (ctx : MemoryContext) (call : MergeCall) (store : MemoryStore)

/-- `cand0`: the most related memory. -/
def cand0 : Option Memory :=
  (decideCandidates ctx store call.newName call.newText).head?.map Prod.snd

theorem combined_nonempty {tables : Unicode} {mreply combined : Text}
    (found : mergeCombined tables mreply = some combined) : combined ≠ [] := by
  unfold mergeCombined at found
  obtain ⟨front, -, kept⟩ := Option.bind_eq_some_iff.mp found
  split at kept
  · cases kept
  · dsimp only at kept
    split at kept
    next long =>
      rintro empty
      rw [Option.some.inj kept, empty] at long
      exact absurd long (by decide)
    next => cases kept

/-- The LAYER-3 MERGE pass. -/
def serve : MergeEnd :=
  match call.cand0 ctx store with
  | none => { kept := store, captured := none }
  | some cand =>
      match found : mergeCombined ctx.tables call.mreply with
      | none => { kept := store, captured := none }
      | some combined =>
          { kept :=
              { registry := store.registry
                nightshift := call.fates.live [call.newText, cand.ep.text] store.nightshift
                file := call.fates.file call.newText cand.ep.text store.file }
            captured := captureLiveEpisode call.capture combined (combined_nonempty found) }

/-- The two facts the pass is about. -/
def facts : List Text := call.newText :: ((call.cand0 ctx store).map Memory.said).toList

end MergeCall

/-! ## What a merge must not lose -/

section Losing

variable (ctx : MemoryContext) (facts : List Text)

/-- An active live memory of one of the facts. -/
def Memory.bears (memory : Memory) : Bool :=
  decide (memory.ep.lifecycle = 0) && facts.contains memory.said

/-- The active episode of one of the facts that a line loads as. -/
def bearing (line : RegistryLine) : Option Episode :=
  (loadLine ctx.tables ctx.geo ctx.disk line).filter fun ep =>
    decide (ep.lifecycle = 0) && facts.contains ep.text

/-- The active episodes of the facts, live and in the file. -/
def MemoryStore.bearers (store : MemoryStore) : List Memory × List Episode :=
  (store.nightshift.filter (Memory.bears facts), store.file.filterMap (bearing ctx facts))

/-- Both facts are where they were, or a live episode combines them and no old one is active. -/
def LosesNothing (combined : Option Text) (store : MemoryStore) (ended : MergeEnd) : Prop :=
  ended.kept.bearers ctx facts = store.bearers ctx facts ∨
    (∃ memory ∈ (ended.final ctx).nightshift,
      some memory.ep.text = combined ∧ memory.ep.lifecycle = 0) ∧
      ended.kept.bearers ctx facts = ([], [])

instance LosesNothing.decidable (combined : Option Text) (store : MemoryStore) (ended : MergeEnd) :
    Decidable (LosesNothing ctx facts combined store ended) :=
  inferInstanceAs (Decidable (_ ∨ (∃ memory ∈ (ended.final ctx).nightshift, _ ∧ _) ∧ _))

/-- The lines that a rewrite looks at, numbered. -/
def ranked : Nat → List RegistryLine → List (RegistryLine × Nat)
  | _, [] => []
  | rank, line :: rest =>
      match line with
      | .blank => ranked rank rest
      | .malformed => (.malformed, rank) :: ranked (rank + 1) rest
      | .scalar => (.scalar, rank) :: ranked (rank + 1) rest
      | .row foreign fields => (.row foreign fields, rank) :: ranked (rank + 1) rest

/-- A rewrite breaks off before it comes to this line. -/
def RewriteFate.cuts (fate : RewriteFate) (rank : Nat) : Bool :=
  match fate with
  | .done => false
  | .failed => false
  | .torn count => decide (count ≤ rank)

/-- A rewrite marks or cuts off the line. -/
def RewriteFate.takes (fate : RewriteFate) (victim : Text) (entry : RegistryLine × Nat) : Bool :=
  fate.cuts entry.2 || decide (fate ≠ .failed ∧ entry.1.ownText = some victim)

/-- The rewrites remove, mark or cut off the line. -/
def DropFates.takes (fates : DropFates) (dropA dropB : Text) (entry : RegistryLine × Nat) : Bool :=
  match fates with
  | .forget rewrites => rewrites && !entry.1.keeps [dropA, dropB]
  | .mark fateA fateB => fateA.takes dropA entry || fateB.takes dropB entry

/-- No active copy of the facts is one that the pass takes. -/
structure MissesAll (fates : DropFates) (dropA dropB : Text) (store : MemoryStore) : Prop where
  live : ∀ memory ∈ store.nightshift, memory.bears facts = true →
    memory.ep.text ∉ [dropA, dropB]
  file : ∀ entry ∈ ranked 0 store.file, (bearing ctx facts entry.1).isSome = true →
    fates.takes dropA dropB entry = false

/-- Every active copy of the facts is one that the pass takes. -/
structure TakesAll (fates : DropFates) (dropA dropB : Text) (store : MemoryStore) : Prop where
  live : ∀ memory ∈ store.nightshift, memory.bears facts = true →
    memory.ep.text ∈ [dropA, dropB]
  file : ∀ entry ∈ ranked 0 store.file, (bearing ctx facts entry.1).isSome = true →
    fates.takes dropA dropB entry = true

end Losing

/-! ## What becomes of the copies -/

theorem filterMap_filter_eq_iff {Item Value : Type} {loads : Item → Option Value}
    {keeps : Item → Bool} {items : List Item} :
    (items.filter keeps).filterMap loads = items.filterMap loads ↔
      ∀ item ∈ items, (loads item).isSome = true → keeps item = true := by
  induction items with
  | nil => exact iff_of_true rfl nofun
  | cons item rest inductionHypothesis =>
      rw [List.forall_mem_cons, ← inductionHypothesis]
      cases kept : keeps item with
      | true =>
          rw [List.filter_cons_of_pos kept]
          cases loaded : loads item with
          | none => simp [loaded]
          | some value => simp [loaded]
      | false =>
          rw [List.filter_cons_of_neg (by rw [kept]; nofun)]
          cases loaded : loads item with
          | none => simp [loaded]
          | some value =>
              have fewer : ((rest.filter keeps).filterMap loads).length ≤
                  (rest.filterMap loads).length :=
                (List.filter_sublist.filterMap loads).length_le
              refine iff_of_false ?_ (fun both => absurd (both.1 rfl) nofun)
              rw [List.filterMap_cons_some loaded]
              intro same
              have lengths := congrArg List.length same
              rw [List.length_cons] at lengths
              omega

section Copies

variable {ctx : MemoryContext} {facts : List Text}

theorem live_bearers (fates : DropFates) (drops : List Text) (nightshift : List Memory) :
    (fates.live drops nightshift).filter (Memory.bears facts) =
      (nightshift.filter (Memory.bears facts)).filter
        fun memory => !drops.contains memory.ep.text := by
  rw [List.filter_comm]
  cases fates with
  | forget _ => rfl
  | mark _ _ =>
      rw [DropFates.live]
      induction nightshift with
      | nil => rfl
      | cons memory rest inductionHypothesis =>
          rw [List.map_cons]
          cases listed : drops.contains memory.ep.text with
          | true =>
              have marked : (memory.withLifecycle 1).bears facts = false := rfl
              rw [if_pos rfl, List.filter_cons_of_neg (by rw [marked]; nofun),
                List.filter_cons_of_neg (by rw [listed]; nofun)]
              exact inductionHypothesis
          | false =>
              have kept : (!drops.contains memory.ep.text) = true := by rw [listed]; rfl
              rw [if_neg nofun, List.filter_cons_of_pos
                (p := fun memory : Memory => !drops.contains memory.ep.text) kept,
                List.filter_cons, List.filter_cons, inductionHypothesis]

theorem ranked_bearers (rank : Nat) (lines : List RegistryLine) :
    (ranked rank lines).filterMap (fun entry => bearing ctx facts entry.1) =
      lines.filterMap (bearing ctx facts) := by
  induction lines generalizing rank with
  | nil => rfl
  | cons line rest inductionHypothesis =>
      cases line with
      | blank => exact inductionHypothesis rank
      | malformed => exact inductionHypothesis (rank + 1)
      | scalar => exact inductionHypothesis (rank + 1)
      | row foreign fields =>
          rw [ranked, List.filterMap_cons, List.filterMap_cons, inductionHypothesis]

theorem forgetRewrite_bearers (victims : List Text) (rank : Nat) (lines : List RegistryLine) :
    (forgetRewrite victims lines).filterMap (bearing ctx facts) =
      ((ranked rank lines).filter fun entry => entry.1.keeps victims).filterMap
        fun entry => bearing ctx facts entry.1 := by
  induction lines generalizing rank with
  | nil => rfl
  | cons line rest inductionHypothesis =>
      cases line with
      | blank => exact inductionHypothesis rank
      | malformed => exact inductionHypothesis (rank + 1)
      | scalar => exact inductionHypothesis (rank + 1)
      | row foreign fields =>
          have later := inductionHypothesis (rank + 1)
          rw [forgetRewrite] at later ⊢
          rw [ranked, List.filter_cons, List.filter_cons]
          split
          · rw [List.filterMap_cons, List.filterMap_cons, later]
          · exact later

theorem le_of_mem_ranked {rank : Nat} {lines : List RegistryLine} {entry : RegistryLine × Nat}
    (member : entry ∈ ranked rank lines) : rank ≤ entry.2 := by
  induction lines generalizing rank with
  | nil => cases member
  | cons line rest inductionHypothesis =>
      have later : entry ∈ ranked (rank + 1) rest → rank ≤ entry.2 := fun found =>
        Nat.le_of_succ_le (inductionHypothesis found)
      cases line with
      | blank => exact inductionHypothesis member
      | malformed => exact (List.mem_cons.mp member).elim (fun same => same ▸ Nat.le_refl _) later
      | scalar => exact (List.mem_cons.mp member).elim (fun same => same ▸ Nat.le_refl _) later
      | row foreign fields =>
          exact (List.mem_cons.mp member).elim (fun same => same ▸ Nat.le_refl _) later

/-- What a rewrite that looks at the line makes of it. -/
def RewriteFate.markEntry (fate : RewriteFate) (victim : Text) (entry : RegistryLine × Nat) :
    RegistryLine × Nat :=
  (if fate = .failed then entry.1 else (entry.1.mark victim 1).getD entry.1, entry.2)

theorem ranked_marked (victim : Text) (rank count : Nat) (lines : List RegistryLine) :
    ranked rank ((markSupersededRegistry victim 1 lines).take count) =
      ((ranked rank lines).filter fun entry => !decide (rank + count ≤ entry.2)).map
        (RewriteFate.done.markEntry victim) := by
  induction lines generalizing rank count with
  | nil => rw [markSupersededRegistry, List.filterMap_nil, List.take_nil]; rfl
  | cons line rest inductionHypothesis =>
      rw [markSupersededRegistry] at inductionHypothesis ⊢
      cases count with
      | zero =>
          have none : (ranked rank (line :: rest)).filter
              (fun entry => !decide (rank + 0 ≤ entry.2)) = [] := by
            apply List.filter_eq_nil_iff.mpr
            intro entry member
            have above : rank + 0 ≤ entry.2 := le_of_mem_ranked member
            rw [decide_eq_true above]
            nofun
          rw [none]
          rfl
      | succ count =>
          let inside : RegistryLine × Nat → Bool := fun entry =>
            !decide (rank + (count + 1) ≤ entry.2)
          have here : ∀ line, inside (line, rank) = true := by
            intro line
            have below : ¬ rank + (count + 1) ≤ rank := by omega
            simp only [inside, decide_eq_false below, Bool.not_false]
          have later := inductionHypothesis (rank + 1) count
          rw [Nat.add_assoc, Nat.add_comm 1 count] at later
          cases line with
          | blank => exact inductionHypothesis rank (count + 1)
          | malformed =>
              rw [ranked, List.filter_cons_of_pos (here .malformed), List.map_cons, ← later]
              rfl
          | scalar =>
              rw [ranked, List.filter_cons_of_pos (here .scalar), List.map_cons, ← later]
              rfl
          | row foreign fields =>
              rw [ranked, List.filter_cons_of_pos (here (.row foreign fields)), List.map_cons,
                ← later]
              rfl

theorem ranked_mapped (victim : Text) (rank : Nat) (lines : List RegistryLine) :
    ranked rank (markSupersededRegistry victim 1 lines) =
      (ranked rank lines).map (RewriteFate.done.markEntry victim) := by
  induction lines generalizing rank with
  | nil => rfl
  | cons line rest inductionHypothesis =>
      rw [markSupersededRegistry] at inductionHypothesis ⊢
      cases line with
      | blank => exact inductionHypothesis rank
      | malformed => exact congrArg (_ :: ·) (inductionHypothesis (rank + 1))
      | scalar => exact congrArg (_ :: ·) (inductionHypothesis (rank + 1))
      | row foreign fields => exact congrArg (_ :: ·) (inductionHypothesis (rank + 1))

theorem ranked_malformed (rank : Nat) (lines : List RegistryLine) :
    ∃ last, ranked rank (lines ++ [.malformed]) = ranked rank lines ++ [(.malformed, last)] := by
  induction lines generalizing rank with
  | nil => exact ⟨rank, rfl⟩
  | cons line rest inductionHypothesis =>
      cases line with
      | blank => exact inductionHypothesis rank
      | malformed => exact (inductionHypothesis (rank + 1)).imp fun _ => congrArg (_ :: ·)
      | scalar => exact (inductionHypothesis (rank + 1)).imp fun _ => congrArg (_ :: ·)
      | row foreign fields =>
          exact (inductionHypothesis (rank + 1)).imp fun _ => congrArg (_ :: ·)

/-- The lines behind a rewrite: those it did not cut off, marked, and perhaps one that does not
parse. -/
theorem ranked_mark (fate : RewriteFate) (victim : Text) (lines : List RegistryLine) :
    ∃ tail, (∀ entry ∈ tail, entry.1 = .malformed) ∧
      ranked 0 (fate.mark victim lines) =
        ((ranked 0 lines).filter fun entry => !fate.cuts entry.2).map (fate.markEntry victim) ++
          tail := by
  cases fate with
  | done =>
      have uncut : (ranked 0 lines).filter (fun entry => !RewriteFate.done.cuts entry.2) =
          ranked 0 lines := List.filter_eq_self.mpr fun _ _ => rfl
      refine ⟨[], nofun, ?_⟩
      rw [List.append_nil, uncut]
      exact ranked_mapped victim 0 lines
  | failed =>
      have uncut : (ranked 0 lines).filter (fun entry => !RewriteFate.failed.cuts entry.2) =
          ranked 0 lines := List.filter_eq_self.mpr fun _ _ => rfl
      refine ⟨[], nofun, ?_⟩
      rw [List.append_nil, uncut]
      exact (List.map_id _).symm
  | torn count =>
      obtain ⟨last, ended⟩ := ranked_malformed 0 ((markSupersededRegistry victim 1 lines).take count)
      refine ⟨[(.malformed, last)], fun entry member => ?_, ?_⟩
      · rw [List.mem_singleton.mp member]
      · have marked := ranked_marked victim 0 count lines
        rw [Nat.zero_add] at marked
        exact ended.trans (congrArg (· ++ _) marked)

theorem ownText_mark (victim : Text) (line : RegistryLine) :
    ((line.mark victim 1).getD line).ownText = line.ownText := by
  cases line with
  | blank => rfl
  | malformed => rfl
  | scalar => rfl
  | row foreign fields =>
      rw [RegistryLine.mark, Option.getD_some]
      change RowFields.str _ "text" = _
      split
      · exact fields.str_insert_of_ne (by decide) _
      · rfl

/-- A marked line bears nothing, any other what it bore. -/
theorem bearing_markEntry (fate : RewriteFate) (victim : Text) (entry : RegistryLine × Nat) :
    bearing ctx facts (fate.markEntry victim entry).1 =
      if fate ≠ .failed ∧ entry.1.ownText = some victim then none
      else bearing ctx facts entry.1 := by
  rw [RewriteFate.markEntry]
  by_cases fail : fate = .failed
  · rw [if_pos fail, if_neg fun both => both.1 fail]
  · rw [if_neg fail]
    obtain ⟨line, rank⟩ := entry
    cases line with
    | blank => exact (if_neg fun both => by cases both.2).symm
    | malformed => exact (if_neg fun both => by cases both.2).symm
    | scalar => exact (if_neg fun both => by cases both.2).symm
    | row foreign fields =>
        rw [RegistryLine.mark, Option.getD_some]
        by_cases own : fields.str "text" = some victim
        · rw [if_pos own, if_pos ⟨fail, own⟩, bearing, loadLine,
            loadRow_insert_lifecycle fields (by decide)]
          cases loadRow ctx.tables ctx.geo ctx.disk fields with
          | none => rfl
          | some ep => rfl
        · rw [if_neg own, if_neg fun both => own both.2]
          rfl

/-- Behind a rewrite the file bears what lines that the rewrite does not take bear. -/
theorem mark_bearers (fate : RewriteFate) (victim : Text) (lines : List RegistryLine)
    (keeps : RegistryLine × Nat → Bool)
    (blind : ∀ entry, keeps (fate.markEntry victim entry) = keeps entry) :
    ((ranked 0 (fate.mark victim lines)).filter keeps).filterMap
        (fun entry => bearing ctx facts entry.1) =
      ((ranked 0 lines).filter fun entry => !fate.takes victim entry && keeps entry).filterMap
        fun entry => bearing ctx facts entry.1 := by
  obtain ⟨tail, unread, after⟩ := ranked_mark fate victim lines
  have silent : (tail.filter keeps).filterMap (fun entry => bearing ctx facts entry.1) = [] := by
    apply List.filterMap_eq_nil_iff.mpr
    intro entry member
    rw [unread entry (List.mem_of_mem_filter member)]
    rfl
  rw [after, List.filter_append, List.filterMap_append, silent, List.append_nil, List.filter_map,
    List.filterMap_map, List.filter_filter, List.filterMap_filter, List.filterMap_filter]
  apply List.filterMap_congr
  intro entry _
  simp only [Function.comp_apply, blind, bearing_markEntry, RewriteFate.takes]
  by_cases marked : fate ≠ .failed ∧ entry.1.ownText = some victim
  · simp [marked]
  · simp [marked, and_comm]

theorem blind_takes (fate other : RewriteFate) (victim dropB : Text) (entry : RegistryLine × Nat) :
    (!other.takes dropB (fate.markEntry victim entry)) = !other.takes dropB entry := by
  have text : (fate.markEntry victim entry).1.ownText = entry.1.ownText := by
    rw [RewriteFate.markEntry]
    split
    · rfl
    · exact ownText_mark victim entry.1
  rw [RewriteFate.takes, text]
  rfl

/-- The copies in the file that the pass leaves. -/
theorem file_bearers (fates : DropFates) (dropA dropB : Text) (lines : List RegistryLine) :
    (fates.file dropA dropB lines).filterMap (bearing ctx facts) =
      ((ranked 0 lines).filter fun entry => !fates.takes dropA dropB entry).filterMap
        fun entry => bearing ctx facts entry.1 := by
  cases fates with
  | forget rewrites =>
      cases rewrites with
      | false =>
          have all : (ranked 0 lines).filter
              (fun entry => !(DropFates.forget false).takes dropA dropB entry) = ranked 0 lines :=
            List.filter_eq_self.mpr fun _ _ => rfl
          rw [all, ranked_bearers]
          rfl
      | true =>
          have rewritten := @forgetRewrite_bearers ctx facts [dropA, dropB] 0 lines
          refine rewritten.trans (congrArg (List.filterMap _) (List.filter_congr fun entry _ => ?_))
          rw [DropFates.takes, Bool.true_and, Bool.not_not]
  | mark fateA fateB =>
      have first := @mark_bearers ctx facts fateA dropA lines
        (fun entry => !fateB.takes dropB entry) (blind_takes fateA fateB dropA dropB)
      have second := @mark_bearers ctx facts fateB dropB (fateA.mark dropA lines)
        (fun _ => true) (fun _ => rfl)
      simp only [List.filter_true, Bool.and_true] at second
      rw [ranked_bearers, first] at second
      refine second.trans (congrArg (List.filterMap _) (List.filter_congr fun entry _ => ?_))
      rw [DropFates.takes, Bool.not_or]

/-- The active live memories that the pass leaves. -/
theorem live_active_iff (fates : DropFates) (drops : List Text) (nightshift : List Memory)
    (text : Text) :
    (∃ memory ∈ fates.live drops nightshift, memory.ep.text = text ∧ memory.ep.lifecycle = 0) ↔
      ∃ memory ∈ nightshift, memory.ep.text = text ∧ memory.ep.lifecycle = 0 ∧ text ∉ drops := by
  cases fates with
  | forget _ =>
      constructor
      · rintro ⟨memory, member, rfl, active⟩
        obtain ⟨listed, kept⟩ := List.mem_filter.mp member
        exact ⟨memory, listed, rfl, active, by simpa using kept⟩
      · rintro ⟨memory, member, rfl, active, free⟩
        exact ⟨memory, List.mem_filter.mpr ⟨member, by simpa using free⟩, rfl, active⟩
  | mark _ _ =>
      constructor
      · rintro ⟨memory, member, same, active⟩
        obtain ⟨old, listed, rfl⟩ := List.mem_map.mp member
        split at same
        next marked =>
          rw [if_pos marked] at active
          cases active
        next unmarked =>
          rw [if_neg unmarked] at active
          exact ⟨old, listed, same, active, same ▸ by simpa using unmarked⟩
      · rintro ⟨memory, member, rfl, active, free⟩
        have unmarked : ¬ drops.contains memory.ep.text = true := by simpa using free
        refine ⟨memory, List.mem_map.mpr ⟨memory, member, if_neg unmarked⟩, rfl, active⟩

end Copies

theorem captureLiveEpisode_isSome_iff (calls : CaptureCalls) (text : Text) (nonempty : text ≠ []) :
    (captureLiveEpisode calls text nonempty).isSome = true ↔ calls.GoThrough := by
  unfold captureLiveEpisode CaptureCalls.GoThrough
  cases calls.encoded with
  | none => simp
  | some tokens =>
      cases calls.globalK with
      | none => simp [guard]
      | some pair =>
          by_cases ready : 4 ≤ tokens.length ∧ calls.resident = true ∧ calls.dirMade = true ∧
              calls.batched = true
          · simp [guard, ready]
          · simp [guard, ready]

theorem captureLiveEpisode_spec {calls : CaptureCalls} {text : Text} {nonempty : text ≠ []}
    {added : Capture} (captured : captureLiveEpisode calls text nonempty = some added) :
    added.path = .liveEpisode ∧ added.said = text := by
  unfold captureLiveEpisode at captured
  simp only [Option.bind_eq_bind, Option.bind_eq_some_iff, Option.pure_def, Option.some.injEq]
    at captured
  obtain ⟨_, _, _, _, _, _, rfl⟩ := captured
  exact ⟨rfl, rfl⟩

/-! ## When nothing is lost -/

/-- A merge goes well: it takes no active copy of the two facts, or all of them, with the combined
fact captured or live already. -/
def MergeCall.Careful (ctx : MemoryContext) (call : MergeCall) (store : MemoryStore) : Prop :=
  ∀ cand combined, call.cand0 ctx store = some cand →
    mergeCombined ctx.tables call.mreply = some combined →
      MissesAll ctx [call.newText, cand.said] call.fates call.newText cand.ep.text store ∨
        (call.capture.GoThrough ∨ ∃ memory ∈ store.nightshift, memory.ep.text = combined ∧
          memory.ep.lifecycle = 0 ∧ combined ∉ [call.newText, cand.ep.text]) ∧
        TakesAll ctx [call.newText, cand.said] call.fates call.newText cand.ep.text store

section Dropped

variable {ctx : MemoryContext} {facts : List Text} {fates : DropFates} {dropA dropB : Text}
  {store kept : MemoryStore} (live : kept.nightshift = fates.live [dropA, dropB] store.nightshift)
  (file : kept.file = fates.file dropA dropB store.file)

include live file

theorem bearers_eq_iff :
    kept.bearers ctx facts = store.bearers ctx facts ↔
      MissesAll ctx facts fates dropA dropB store := by
  rw [MemoryStore.bearers, MemoryStore.bearers, live, file, live_bearers, file_bearers,
    ← ranked_bearers 0 store.file, Prod.mk.injEq, filterMap_filter_eq_iff, List.filter_eq_self]
  constructor
  · rintro ⟨kept_live, kept_file⟩
    refine ⟨fun memory member bears listed => ?_, fun entry member loads => ?_⟩
    · have unlisted := kept_live memory (List.mem_filter.mpr ⟨member, bears⟩)
      rw [List.contains_iff_mem.mpr listed] at unlisted
      cases unlisted
    · exact (Bool.not_eq_true' _).mp (kept_file entry member loads)
  · rintro ⟨missed_live, missed_file⟩
    refine ⟨fun memory member => ?_, fun entry member loads => ?_⟩
    · obtain ⟨listed, bears⟩ := List.mem_filter.mp member
      have free := missed_live memory listed bears
      rw [Bool.not_eq_true', Bool.eq_false_iff]
      exact fun found => free (List.contains_iff_mem.mp found)
    · exact (Bool.not_eq_true' _).mpr (missed_file entry member loads)

theorem bearers_nil_iff :
    kept.bearers ctx facts = ([], []) ↔ TakesAll ctx facts fates dropA dropB store := by
  rw [MemoryStore.bearers, live, file, live_bearers, file_bearers, Prod.mk.injEq,
    List.filter_eq_nil_iff, List.filterMap_eq_nil_iff]
  constructor
  · rintro ⟨gone_live, gone_file⟩
    refine ⟨fun memory member bears => ?_, fun entry member loads => ?_⟩
    · have listed := gone_live memory (List.mem_filter.mpr ⟨member, bears⟩)
      rw [Bool.not_eq_true', Bool.not_eq_false] at listed
      exact List.contains_iff_mem.mp listed
    · by_contra left
      rw [Bool.not_eq_true] at left
      have none := gone_file entry (List.mem_filter.mpr ⟨member, by rw [left]; rfl⟩)
      rw [none] at loads
      cases loads
  · rintro ⟨taken_live, taken_file⟩
    refine ⟨fun memory member => ?_, fun entry member => ?_⟩
    · obtain ⟨listed, bears⟩ := List.mem_filter.mp member
      rw [List.contains_iff_mem.mpr (taken_live memory listed bears)]
      nofun
    · obtain ⟨listed, left⟩ := List.mem_filter.mp member
      by_contra loads
      have taken := taken_file entry listed (Option.isSome_iff_ne_none.mpr loads)
      rw [taken] at left
      cases left

end Dropped

theorem MergeCall.serve_idle {ctx : MemoryContext} {call : MergeCall} {store : MemoryStore}
    (idle : call.cand0 ctx store = none ∨ mergeCombined ctx.tables call.mreply = none) :
    call.serve ctx store = { kept := store, captured := none } := by
  unfold MergeCall.serve
  split
  next => rfl
  next cand found =>
    split
    next => rfl
    next combined replied =>
      rcases idle with none | none
      · cases found.symm.trans none
      · cases replied.symm.trans none

theorem MergeCall.serve_merge {ctx : MemoryContext} {call : MergeCall} {store : MemoryStore}
    {cand : Memory} {combined : Text} (found : call.cand0 ctx store = some cand)
    (replied : mergeCombined ctx.tables call.mreply = some combined) :
    call.serve ctx store =
      { kept :=
          { registry := store.registry
            nightshift := call.fates.live [call.newText, cand.ep.text] store.nightshift
            file := call.fates.file call.newText cand.ep.text store.file }
        captured := captureLiveEpisode call.capture combined (combined_nonempty replied) } := by
  unfold MergeCall.serve
  rw [found]
  dsimp only
  split
  next none => cases replied.symm.trans none
  next other again =>
    cases again.symm.trans replied
    rfl

/-- The combined fact is live behind the pass if it was captured, or was live and not dropped. -/
theorem combined_live_iff {ctx : MemoryContext} {call : MergeCall} {combined : Text}
    {nonempty : combined ≠ []} {fates : DropFates} {drops : List Text} {store kept : MemoryStore}
    (live : kept.nightshift = fates.live drops store.nightshift) :
    (∃ memory ∈ (MergeEnd.final ctx
        ⟨kept, captureLiveEpisode call.capture combined nonempty⟩).nightshift,
      some memory.ep.text = some combined ∧ memory.ep.lifecycle = 0) ↔
      call.capture.GoThrough ∨ ∃ memory ∈ store.nightshift, memory.ep.text = combined ∧
        memory.ep.lifecycle = 0 ∧ combined ∉ drops := by
  have through := captureLiveEpisode_isSome_iff call.capture combined nonempty
  simp only [Option.some.injEq]
  rw [← live_active_iff fates drops store.nightshift combined, ← live]
  cases captured : captureLiveEpisode call.capture combined nonempty with
  | none =>
      rw [captured] at through
      exact ⟨.inr, fun either => either.resolve_left fun all => absurd (through.mpr all) nofun⟩
  | some added =>
      rw [captured] at through
      obtain ⟨path, said⟩ := captureLiveEpisode_spec captured
      have text : (added.memory ctx.classMap).ep.text = combined := by
        change added.path.spell added.said = combined
        rw [path, said]
        rfl
      refine iff_of_true ⟨added.memory ctx.classMap, ?_, text, rfl⟩ (.inl (through.mp rfl))
      exact List.mem_append_right _ List.mem_cons_self

/-- A pass loses no fact exactly where its merge goes well. -/
theorem mergePass_losesNothing_iff (ctx : MemoryContext) (call : MergeCall) (store : MemoryStore) :
    LosesNothing ctx (call.facts ctx store) (mergeCombined ctx.tables call.mreply) store
        (call.serve ctx store) ↔
      call.Careful ctx store := by
  cases found : call.cand0 ctx store with
  | none =>
      rw [MergeCall.serve_idle (.inl found)]
      exact iff_of_true (.inl rfl) fun cand combined some => by cases found.symm.trans some
  | some cand =>
      cases replied : mergeCombined ctx.tables call.mreply with
      | none =>
          rw [MergeCall.serve_idle (.inr replied)]
          exact iff_of_true (.inl rfl) fun cand combined _ some => by cases replied.symm.trans some
      | some combined =>
          have facts : call.facts ctx store = [call.newText, cand.said] := by
            rw [MergeCall.facts, found]
            rfl
          rw [MergeCall.serve_merge found replied, LosesNothing, facts, bearers_eq_iff rfl rfl,
            bearers_nil_iff rfl rfl, combined_live_iff rfl]
          constructor
          · intro well other text same again
            cases found.symm.trans same
            cases replied.symm.trans again
            exact well
          · exact fun careful => careful cand combined found replied

/-- The copy that the inline capture has just pushed is attributed, so that a merge which goes well
takes no copy at all, unless the related memory is an older copy of the same fact. -/
theorem MergeCall.Careful.of_captured {ctx : MemoryContext} {call : MergeCall} {store : MemoryStore}
    (careful : call.Careful ctx store) {added : Capture} (path : added.path = .nightshift)
    (said : added.said = call.newText) (pushed : added.memory ctx.classMap ∈ store.nightshift)
    {cand : Memory} {combined : Text} (found : call.cand0 ctx store = some cand)
    (replied : mergeCombined ctx.tables call.mreply = some combined) :
    MissesAll ctx [call.newText, cand.said] call.fates call.newText cand.ep.text store ∨
      cand.ep.text = attributed call.newText := by
  refine (careful cand combined found replied).imp_right fun well => ?_
  have text : (added.memory ctx.classMap).ep.text = attributed call.newText := by
    change added.path.spell added.said = _
    rw [path, said]
    rfl
  have bears : (added.memory ctx.classMap).bears [call.newText, cand.said] = true := by
    have fact : [call.newText, cand.said].contains added.said = true :=
      List.contains_iff_mem.mpr (said ▸ List.mem_cons_self)
    exact fact
  have taken := well.2.live _ pushed bears
  rw [text] at taken
  rcases List.mem_cons.mp taken with bare | related
  · have unmarked : "The user said: ".toList = [] := List.append_left_eq_self.mp bare
    exact absurd unmarked (by decide)
  · exact (List.mem_singleton.mp related).symm

/-! A stored fact, and one that a turn has just stated. -/

def greenCapture : Capture where
  path := .nightshift
  said := "My color is green.".toList
  said_nonempty := by decide
  name := "ep_live_m2"
  dir := "eps/ep_live_m2".toList
  tokens := [2, 10, 11, 13]
  sig := List.replicate 256 true
  gk := []
  gkNg := 0
  l5key := []
  memClass := none
  persisted := true

def colorsStore : MemoryStore :=
  serveAll (MemoryStep.serve plainMemoryContext)
    [.capture (colorCapture .liveEpisode), .capture greenCapture] ⟨[], [], []⟩

def colorsMerge (encoded : Option (List Int)) : MergeCall where
  newName := "ep_live_m2"
  newText := "My color is green.".toList
  mreply := "MERGE:: My colors are blue and green.".toList
  fates := .forget true
  capture :=
    { encoded
      resident := true
      dirMade := true
      batched := true
      globalK := some ([], 0)
      name := "ep_live_m3"
      dir := "eps/ep_live_m3".toList
      sig := List.replicate 256 false
      l5key := []
      memClass := none
      persisted := true }

/-- With every call through, the copy just captured stays active; with the capture of the combined
fact failing, the related fact is gone and nothing is in its place. -/
theorem merge_loses_fact :
    (¬ LosesNothing plainMemoryContext
        ((colorsMerge (some [2, 10, 11, 12])).facts plainMemoryContext colorsStore)
        (mergeCombined .ascii (colorsMerge (some [2, 10, 11, 12])).mreply) colorsStore
        ((colorsMerge (some [2, 10, 11, 12])).serve plainMemoryContext colorsStore)) ∧
    (¬ LosesNothing plainMemoryContext ((colorsMerge none).facts plainMemoryContext colorsStore)
        (mergeCombined .ascii (colorsMerge none).mreply) colorsStore
        ((colorsMerge none).serve plainMemoryContext colorsStore)) ∧
    (((colorsMerge none).serve plainMemoryContext colorsStore).final plainMemoryContext).file =
      [] := by
  decide +kernel

end KairosEngine.Daemon
