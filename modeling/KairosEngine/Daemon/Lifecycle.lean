import KairosEngine.Daemon.ForgetGone
import KairosEngine.Daemon.RecallFrame
import KairosEngine.Daemon.RecallTurns

/-!
# Superseded memories and the recall lanes

Under `SP_MEM_LIFECYCLE` a removal marks instead of deleting.  The store is followed with
a ghost flag on each of its three copies of an episode: whether an earlier turn marked
that episode superseded, reached by the mark or not.
-/

namespace KairosEngine.Daemon

open KairosEngine.Library

universe u

/-- An item of the store and whether its episode was marked superseded. -/
structure Tracked (Item : Type u) where
  item : Item
  superseded : Bool

/-- A rewrite of the file that went through, failed, or broke off after some lines. -/
inductive RewriteFate where
  | done
  | failed
  | torn (count : Nat)
  deriving DecidableEq

structure LifecycleStore where
  registry : List (Tracked Episode)
  nightshift : List (Tracked Memory)
  file : List (Tracked RegistryLine)

/-- The same episode: its name, its directory and its signature. -/
def sameEpisode (left right : Episode) : Bool :=
  decide (left.name = right.name) && decide (left.dir = right.dir) && decide (left.sig = right.sig)

def Memory.withLifecycle (memory : Memory) (lc : Nat) : Memory where
  said := memory.said
  ep := { memory.ep with lifecycle := lc }
  spelled := memory.spelled

/-- `mark_superseded_registry` with lifecycle 1 on tracked lines; the line a torn rewrite
breaks off in does not parse. -/
def markLines (victim : Text) (fate : RewriteFate) (lines : List (Tracked RegistryLine)) :
    List (Tracked RegistryLine) :=
  let marked := lines.filterMap fun line =>
    (line.item.mark victim 1).map fun item => { line with item }
  match fate with
  | .done => marked
  | .failed => lines
  | .torn count => marked.take count ++ [⟨.malformed, false⟩]

namespace LifecycleStore

variable (ctx : MemoryContext) (store : LifecycleStore)

/-- The store of the running code. -/
def erase : MemoryStore where
  registry := store.registry.map Tracked.item
  nightshift := store.nightshift.map Tracked.item
  file := store.file.map Tracked.item

/-- What the lanes scan: the registry chained with the live episodes. -/
def tracked : List (Tracked Episode) :=
  store.registry ++ store.nightshift.map fun memory => ⟨memory.item.ep, memory.superseded⟩

/-- Every episode with one of these texts, wherever it is. -/
def named (victims : List Text) : List Episode :=
  (store.tracked.map Tracked.item ++
    loadRegistry ctx.tables ctx.geo ctx.disk store.erase.file).filter
    fun ep => victims.contains ep.text

/-- A mark on these texts concerns the episode. -/
def concerns (victims : List Text) (ep : Episode) : Bool :=
  (store.named ctx victims).any (sameEpisode ep)

/-- The episode that loads from a line is concerned. -/
def concernsLine (victims : List Text) (line : RegistryLine) : Bool :=
  (loadLine ctx.tables ctx.geo ctx.disk line).any (store.concerns ctx victims)

/-- Mark the live episodes with these texts and the rows, one rewrite for each text.  The
registry of the process is immutable. -/
def supersede (victims : List (Text × RewriteFate)) : LifecycleStore where
  registry := store.registry.map fun ep =>
    { ep with superseded := ep.superseded || store.concerns ctx (victims.map Prod.fst) ep.item }
  nightshift := store.nightshift.map fun memory =>
    { item :=
        if (victims.map Prod.fst).contains memory.item.ep.text then memory.item.withLifecycle 1
        else memory.item
      superseded :=
        memory.superseded || store.concerns ctx (victims.map Prod.fst) memory.item.ep }
  file := victims.foldl (fun lines victim => markLines victim.1 victim.2 lines)
    (store.file.map fun line =>
      { line with
        superseded :=
          line.superseded || store.concernsLine ctx (victims.map Prod.fst) line.item })

def capture (added : Capture) : LifecycleStore where
  registry := store.registry
  nightshift := store.nightshift ++ [⟨added.memory ctx.classMap, false⟩]
  file := if added.persisted then store.file ++ [⟨.row false added.row, false⟩] else store.file

def restart : LifecycleStore where
  registry := store.file.filterMap fun line =>
    (loadLine ctx.tables ctx.geo ctx.disk line.item).map fun ep => ⟨ep, line.superseded⟩
  nightshift := []
  file := store.file

end LifecycleStore

/-- One turn, or one pass behind a turn.  A merge supersedes the new fact and the best
related memory, and captures the combined fact. -/
inductive LifecycleRequest where
  | capture (added : Capture)
  | supersede (removal : Removal) (fate : RewriteFate)
  | merge (newName : String) (newText : Text) (fateA fateB : RewriteFate)
      (combined : Option Capture)
  | restart
  | recallTurn (request : RecallRequest)

namespace LifecycleRequest

variable (ctx : MemoryContext)

/-- The texts a request marks superseded. -/
def victims (store : LifecycleStore) : LifecycleRequest → List (Text × RewriteFate)
  | .supersede removal fate =>
      ((removal.selects ctx store.erase).map fun memory => (memory.ep.text, fate)).toList
  | .merge newName newText fateA fateB _ =>
      match (decideCandidates ctx store.erase newName newText).head? with
      | some cand => [(newText, fateA), (cand.2.ep.text, fateB)]
      | none => []
  | .capture _ => []
  | .restart => []
  | .recallTurn _ => []

def serve (request : LifecycleRequest) (store : LifecycleStore) : LifecycleStore :=
  let marked := store.supersede ctx (request.victims ctx store)
  match request with
  | .capture added => marked.capture ctx added
  | .merge _ _ _ _ (some combined) => marked.capture ctx combined
  | .merge _ _ _ _ none => marked
  | .supersede _ _ => marked
  | .restart => marked.restart ctx
  | .recallTurn _ => marked

end LifecycleRequest

/-! ## What a mark has to reach -/

section Conditions

variable (ctx : MemoryContext)

/-- A mark reaches every active copy of the episodes it concerns. -/
structure MarksReach (store : LifecycleStore) (victims : List (Text × RewriteFate)) : Prop where
  /-- None is in the registry of the process. -/
  registry : ∀ ep ∈ store.registry, store.concerns ctx (victims.map Prod.fst) ep.item = true →
    ep.item.lifecycle ≠ 0
  /-- A live one has the marked text. -/
  nightshift : ∀ memory ∈ store.nightshift,
    store.concerns ctx (victims.map Prod.fst) memory.item.ep = true →
      memory.item.ep.lifecycle ≠ 0 ∨ memory.item.ep.text ∈ victims.map Prod.fst
  /-- A row has the marked text itself, and that rewrite goes through. -/
  file : ∀ line ∈ store.file, ∀ ep, loadLine ctx.tables ctx.geo ctx.disk line.item = some ep →
    store.concerns ctx (victims.map Prod.fst) ep = true →
      ep.lifecycle ≠ 0 ∨ ∃ victim ∈ victims, line.item.ownText = some victim.1 ∧
        victim.2 ≠ .failed

/-- No superseded episode is scanned by a lane that does not look at the lifecycle. -/
def LanesClear (request : RecallRequest) (store : LifecycleStore) : Prop :=
  ∀ ep ∈ store.tracked, ep.superseded = true →
    ep.item ∉ request.unfiltered (store.registry.map Tracked.item)
      (store.nightshift.map fun memory => memory.item.ep)

def LifecycleRequest.Careful (request : LifecycleRequest) (store : LifecycleStore) : Prop :=
  MarksReach ctx store (request.victims ctx store) ∧
    ∀ recalling, request = .recallTurn recalling → LanesClear recalling store

/-- What the request recalls in this state. -/
def LifecycleStore.recalled (store : LifecycleStore) (request : RecallRequest) : Option Recalled :=
  request.recalled (store.registry.map Tracked.item)
    (store.nightshift.map fun memory => memory.item.ep)

/-- Nothing was superseded before the run. -/
structure LifecycleStore.Fresh (store : LifecycleStore) : Prop where
  registry : ∀ ep ∈ store.registry, ep.superseded = false
  nightshift : ∀ memory ∈ store.nightshift, memory.superseded = false
  file : ∀ line ∈ store.file, line.superseded = false

/-- Every superseded episode is marked in all its copies. -/
structure LifecycleStore.Marked (store : LifecycleStore) : Prop where
  registry : ∀ ep ∈ store.registry, ep.superseded = true → ep.item.lifecycle ≠ 0
  nightshift : ∀ memory ∈ store.nightshift, memory.superseded = true →
    memory.item.ep.lifecycle ≠ 0
  file : ∀ line ∈ store.file, line.superseded = true →
    ∀ ep, loadLine ctx.tables ctx.geo ctx.disk line.item = some ep → ep.lifecycle ≠ 0

end Conditions

theorem marksReach_nil {ctx : MemoryContext} {store : LifecycleStore} :
    MarksReach ctx store [] := by
  have none : store.named ctx [] = [] := by
    unfold LifecycleStore.named
    simp
  have unconcerned : ∀ ep, store.concerns ctx [] ep = false := by
    intro ep
    rw [LifecycleStore.concerns, none, List.any_nil]
  refine ⟨?_, ?_, ?_⟩
  · intro ep _ concerned
    rw [List.map_nil, unconcerned] at concerned
    cases concerned
  · intro memory _ concerned
    rw [List.map_nil, unconcerned] at concerned
    cases concerned
  · intro line _ ep _ concerned
    rw [List.map_nil, unconcerned] at concerned
    cases concerned

/-! ## Rewrites of the file -/

section Rewrites

variable {ctx : MemoryContext}

/-- A superseded line loads with a mark, or still awaits one of these rewrites. -/
def Awaits (ctx : MemoryContext) (victims : List (Text × RewriteFate))
    (line : Tracked RegistryLine) : Prop :=
  line.superseded = true →
    ∀ ep, loadLine ctx.tables ctx.geo ctx.disk line.item = some ep →
      ep.lifecycle ≠ 0 ∨ ∃ victim ∈ victims, line.item.ownText = some victim.1 ∧
        victim.2 ≠ .failed

theorem awaits_mark {victim : Text} {fate : RewriteFate} {rest : List (Text × RewriteFate)}
    {line : Tracked RegistryLine} {item : RegistryLine}
    (waits : Awaits ctx ((victim, fate) :: rest) line)
    (marked : line.item.mark victim 1 = some item) : Awaits ctx rest { line with item } := by
  intro superseded ep loads
  obtain ⟨original, flag⟩ := line
  cases original with
  | blank => cases marked
  | malformed =>
      cases marked
      cases loads
  | scalar =>
      cases marked
      cases loads
  | row foreign fields =>
      simp only [RegistryLine.mark, Option.some.injEq] at marked
      subst marked
      simp only at loads superseded ⊢
      split at loads
      next own =>
        simp only [loadLine, loadRow_insert_lifecycle fields (by decide : 1 < 256)] at loads
        obtain ⟨_, _, rfl⟩ := Option.map_eq_some_iff.mp loads
        exact Or.inl Nat.one_ne_zero
      next other =>
        rcases waits superseded ep loads with already | ⟨next, member, own, written⟩
        · exact Or.inl already
        · rcases List.mem_cons.mp member with rfl | later
          · exact absurd own other
          · rw [if_neg other]
            exact Or.inr ⟨next, later, own, written⟩

theorem awaits_markLines {victim : Text} {fate : RewriteFate} {rest : List (Text × RewriteFate)}
    {lines : List (Tracked RegistryLine)}
    (waiting : ∀ line ∈ lines, Awaits ctx ((victim, fate) :: rest) line) :
    ∀ line ∈ markLines victim fate lines, Awaits ctx rest line := by
  have marked : ∀ line ∈ lines.filterMap fun line : Tracked RegistryLine =>
      (line.item.mark victim 1).map fun item => { line with item }, Awaits ctx rest line := by
    intro line member
    obtain ⟨before, present, rewritten⟩ := List.mem_filterMap.mp member
    obtain ⟨item, mark, rfl⟩ := Option.map_eq_some_iff.mp rewritten
    exact awaits_mark (waiting before present) mark
  unfold markLines
  cases fate with
  | done => exact marked
  | failed =>
      intro line member superseded ep loads
      rcases waiting line member superseded ep loads with already | ⟨next, pending, own, written⟩
      · exact Or.inl already
      · rcases List.mem_cons.mp pending with rfl | later
        · exact absurd rfl written
        · exact Or.inr ⟨next, later, own, written⟩
  | torn count =>
      intro line member
      rcases List.mem_append.mp member with kept | broken
      · exact marked line (List.mem_of_mem_take kept)
      · rw [List.mem_singleton.mp broken]
        intro superseded
        cases superseded

theorem awaits_rewrites (victims : List (Text × RewriteFate)) {lines : List (Tracked RegistryLine)}
    (waiting : ∀ line ∈ lines, Awaits ctx victims line) :
    ∀ line ∈ victims.foldl (fun lines victim => markLines victim.1 victim.2 lines) lines,
      Awaits ctx [] line := by
  induction victims generalizing lines with
  | nil => exact waiting
  | cons victim rest inductionHypothesis =>
      obtain ⟨text, fate⟩ := victim
      exact inductionHypothesis (awaits_markLines waiting)

end Rewrites

/-! ## The invariant -/

namespace LifecycleStore

variable {ctx : MemoryContext} {store : LifecycleStore}

theorem Fresh.marked (fresh : store.Fresh) : store.Marked ctx := by
  refine ⟨?_, ?_, ?_⟩
  · intro ep member superseded
    rw [fresh.registry ep member] at superseded
    cases superseded
  · intro memory member superseded
    rw [fresh.nightshift memory member] at superseded
    cases superseded
  · intro line member superseded
    rw [fresh.file line member] at superseded
    cases superseded

theorem supersede_marked {victims : List (Text × RewriteFate)} (marked : store.Marked ctx)
    (reaches : MarksReach ctx store victims) : (store.supersede ctx victims).Marked ctx := by
  refine ⟨?_, ?_, ?_⟩
  · intro ep member superseded
    obtain ⟨before, present, rfl⟩ := List.mem_map.mp member
    rcases Bool.or_eq_true_iff.mp superseded with already | concerned
    · exact marked.registry before present already
    · exact reaches.registry before present concerned
  · intro memory member superseded
    obtain ⟨before, present, rfl⟩ := List.mem_map.mp member
    simp only
    split
    next => exact Nat.one_ne_zero
    next unmarked =>
      rcases Bool.or_eq_true_iff.mp superseded with already | concerned
      · exact marked.nightshift before present already
      · rcases reaches.nightshift before present concerned with already | named
        · exact already
        · exact absurd (List.contains_iff_mem.mpr named) unmarked
  · intro line member superseded ep loads
    have settled : Awaits ctx [] line := by
      apply awaits_rewrites victims _ line member
      intro line member superseded ep loads
      obtain ⟨before, present, rfl⟩ := List.mem_map.mp member
      rcases Bool.or_eq_true_iff.mp superseded with already | concerned
      · exact Or.inl (marked.file before present already ep loads)
      · simp only at loads
        rw [concernsLine, loads, Option.any_some] at concerned
        exact reaches.file before present ep loads concerned
    rcases settled superseded ep loads with inactive | ⟨_, none, _⟩
    · exact inactive
    · cases none

theorem capture_marked (marked : store.Marked ctx) (added : Capture) :
    (store.capture ctx added).Marked ctx := by
  refine ⟨marked.registry, ?_, ?_⟩
  · intro memory member superseded
    rcases List.mem_append.mp member with before | new
    · exact marked.nightshift memory before superseded
    · rw [List.mem_singleton.mp new] at superseded
      cases superseded
  · intro line member superseded
    unfold LifecycleStore.capture at member
    simp only at member
    split at member
    next =>
      rcases List.mem_append.mp member with before | new
      · exact marked.file line before superseded
      · rw [List.mem_singleton.mp new] at superseded
        cases superseded
    next => exact marked.file line member superseded

theorem restart_marked (marked : store.Marked ctx) : (store.restart ctx).Marked ctx := by
  refine ⟨?_, ?_, marked.file⟩
  · intro ep member superseded
    obtain ⟨line, present, loaded⟩ := List.mem_filterMap.mp member
    obtain ⟨found, loads, rfl⟩ := Option.map_eq_some_iff.mp loaded
    exact marked.file line present superseded found loads
  · intro memory member
    cases member

theorem serve_marked {request : LifecycleRequest} (marked : store.Marked ctx)
    (careful : request.Careful ctx store) : (request.serve ctx store).Marked ctx := by
  have reached := supersede_marked marked careful.1
  cases request with
  | capture added => exact capture_marked reached added
  | supersede removal fate => exact reached
  | merge newName newText fateA fateB combined =>
      cases combined with
      | none => exact reached
      | some added => exact capture_marked reached added
  | restart => exact restart_marked reached
  | recallTurn request => exact reached

/-- In a marked state a careful recall picks an episode that is not superseded. -/
theorem recalled_active {request : RecallRequest} {recalled : Recalled} (marked : store.Marked ctx)
    (clear : LanesClear request store) (recalls : store.recalled request = some recalled) :
    ∃ ep ∈ store.tracked, ep.superseded = false ∧ ep.item.recalled = recalled := by
  have scanned := request.recalled_scanned _ _ recalls
  have lifecycle : ∀ ep ∈ store.tracked, ep.superseded = true → ep.item.lifecycle ≠ 0 := by
    intro ep member superseded
    rcases List.mem_append.mp member with curated | live
    · exact marked.registry ep curated superseded
    · obtain ⟨memory, present, rfl⟩ := List.mem_map.mp live
      exact marked.nightshift memory present superseded
  have everyone : store.registry.map Tracked.item ++
      (store.nightshift.map fun memory => memory.item.ep) = store.tracked.map Tracked.item := by
    simp [tracked]
  have tracked_of_mem : ∀ ep ∈ store.registry.map Tracked.item ++
      (store.nightshift.map fun memory => memory.item.ep),
      ∃ entry ∈ store.tracked, entry.item = ep := by
    intro ep member
    rw [everyone] at member
    exact List.mem_map.mp member
  rcases scanned with ⟨ep, candidate, same⟩ | ⟨ep, candidate, same⟩
  · obtain ⟨entry, present, rfl⟩ := tracked_of_mem ep (request.unfiltered_subset _ _ candidate)
    refine ⟨entry, present, ?_, same⟩
    rw [Bool.eq_false_iff]
    exact fun superseded => clear entry present superseded candidate
  · obtain ⟨member, active⟩ := List.mem_filter.mp candidate
    obtain ⟨entry, present, rfl⟩ := tracked_of_mem ep member
    refine ⟨entry, present, ?_, same⟩
    rw [Bool.eq_false_iff]
    intro superseded
    have inactive := lifecycle entry present superseded
    simp [inactive] at active

end LifecycleStore

/-- Along a careful run no recall brings back an episode that was superseded. -/
theorem superseded_stays_out (ctx : MemoryContext) (store : LifecycleStore) (fresh : store.Fresh)
    (requests : List LifecycleRequest)
    (guarded : GuardedRun (LifecycleRequest.serve ctx) (LifecycleRequest.Careful ctx) requests
      store)
    (served : List LifecycleRequest) (request : RecallRequest) (later : List LifecycleRequest)
    (order : requests = served ++ .recallTurn request :: later) (recalled : Recalled)
    (recalls : (serveAll (LifecycleRequest.serve ctx) served store).recalled request =
      some recalled) :
    ∃ ep ∈ (serveAll (LifecycleRequest.serve ctx) served store).tracked,
      ep.superseded = false ∧ ep.item.recalled = recalled := by
  subst order
  obtain ⟨before, now, _⟩ := GuardedRun.append_iff.mp guarded
  have marked : (serveAll (LifecycleRequest.serve ctx) served store).Marked ctx := by
    apply before.preserves
    · exact fun request state careful kept => LifecycleStore.serve_marked kept careful
    · exact fresh.marked
  exact LifecycleStore.recalled_active marked (now.2 request rfl) recalls

/-! The inline L5 lane alone, on a question whose key every keyed episode has. -/

def keyedRequest : RecallRequest where
  base := tiedTurn
  spine := none
  int2 := none
  wc := none
  audit_unset := by
    intro flags enabled
    cases enabled
    rfl

def forgetColorRequest : LifecycleRequest := .supersede forgetColor .done

/-- The fact is live, and another memory is in the registry. -/
def liveColor : LifecycleStore where
  registry := [⟨tiedEpisode "sky" "The sky is green.".toList, false⟩]
  nightshift := [⟨(colorCapture .liveEpisode).memory fun _ => none, false⟩]
  file := []

theorem active_memory_recalled :
    ∃ ep ∈ (serveAll (LifecycleRequest.serve plainMemoryContext) [forgetColorRequest]
        liveColor).tracked,
      ep.superseded = false ∧ ep.item.recalled = ("sky", "The sky is green.".toList) := by
  refine superseded_stays_out plainMemoryContext liveColor ⟨?_, ?_, ?_⟩
    [forgetColorRequest, .recallTurn keyedRequest] ⟨⟨?_, ?_⟩, ⟨marksReach_nil, ?_⟩, trivial⟩
    [forgetColorRequest] keyedRequest [] rfl _ (by decide +kernel)
  · decide
  · decide
  · decide
  · have victims : forgetColorRequest.victims plainMemoryContext liveColor =
        [("My color is blue.".toList, RewriteFate.done)] := by decide +kernel
    rw [victims]
    refine ⟨?_, ?_, ?_⟩
    · intro ep member concerned
      rw [List.mem_singleton.mp member] at concerned
      exact absurd concerned (by decide)
    · intro memory member _
      rw [List.mem_singleton.mp member]
      exact Or.inr (by decide)
    · intro line member
      cases member
  · intro recalling same
    cases same
  · intro recalling same ep _ _ scanned
    cases same
    cases scanned

/-- The fact is in the registry of the process, which no mark reaches. -/
def curatedColor : LifecycleStore where
  registry := [⟨tiedEpisode "color" "My color is blue.".toList, false⟩]
  nightshift := []
  file := []

theorem curated_memory_resurfaces :
    (serveAll (LifecycleRequest.serve plainMemoryContext) [forgetColorRequest]
        curatedColor).recalled keyedRequest = some ("color", "My color is blue.".toList) ∧
      ∀ ep ∈ (serveAll (LifecycleRequest.serve plainMemoryContext) [forgetColorRequest]
          curatedColor).tracked, ep.superseded = true := by
  decide +kernel

end KairosEngine.Daemon
