import KairosEngine.Daemon.MemoryStore

/-!
# When a forgotten memory is gone

A removal compares exact texts, in the live list and in the rows of the file.  It takes
every copy of a fact along when they all have the text of the selected one.
-/

namespace KairosEngine.Daemon

open KairosEngine.Library

section Gone

variable (ctx : MemoryContext)

/-- No memory carries the fact, now or after the file is loaded again. -/
structure Gone (said : Text) (store : MemoryStore) : Prop where
  process : ∀ memory ∈ store.memories, memory.said ≠ said
  reload : ∀ ep ∈ loadRegistry ctx.tables ctx.geo ctx.disk store.file, ep.text ≠ said

/-- The three places before a removal that takes the fact along. -/
structure Forgettable (store : MemoryStore) (rewrites : Bool) (memory : Memory) : Prop where
  /-- It was not loaded at boot. -/
  uncurated : ∀ ep ∈ store.registry, ep.text ≠ memory.said
  /-- Its live copies are spelled alike. -/
  alike : ∀ live ∈ store.nightshift, live.said = memory.said → live.ep.text = memory.ep.text
  /-- A row that loads with it has the selected text itself, and the rewrite succeeds. -/
  listed : ∀ line ∈ store.file, ∀ ep, loadLine ctx.tables ctx.geo ctx.disk line = some ep →
    ep.text = memory.said → rewrites = true ∧
      ∃ fields, line = .row false fields ∧ fields.str "text" = some memory.ep.text

/-- A step that does not capture the fact anew. -/
def MemoryStep.Silent (said : Text) : MemoryStep → Prop
  | .capture added => added.said ≠ said
  | .merge _ _ _ (some added) => added.said ≠ said
  | .merge _ _ _ none => True
  | .remove _ _ => True
  | .restart => True

end Gone

/-! ## Rewrites -/

theorem RegistryLine.keeps_row_eq_false {victim : Text} {foreign : Bool} {fields : RowFields} :
    (RegistryLine.row foreign fields).keeps [victim] = false ↔
      foreign = false ∧ fields.str "text" = some victim := by
  rw [keeps, Bool.or_eq_false_iff, Bool.not_eq_false']
  cases fields.str "text" with
  | none => simp
  | some own => simp

theorem forgetRewrite_subset (victims : List Text) (lines : List RegistryLine) :
    forgetRewrite victims lines ⊆ lines := fun _ kept => List.mem_of_mem_filter kept

namespace MemoryStore

variable {ctx : MemoryContext} {store : MemoryStore} {said : Text}

theorem remove_file_subset (victims : List Text) (rewrites : Bool) :
    (store.remove victims rewrites).file ⊆ store.file := by
  cases rewrites with
  | true => exact forgetRewrite_subset victims store.file
  | false => exact fun _ member => member

theorem remove_memories_subset (victims : List Text) (rewrites : Bool) :
    (store.remove victims rewrites).memories ⊆ store.memories := by
  intro memory member
  rw [mem_memories] at member ⊢
  rcases member with curated | live
  · exact Or.inl curated
  · exact Or.inr (List.mem_of_mem_filter live)

/-- The removal of a selected memory takes its fact along in exactly these states. -/
theorem remove_gone_iff (rewrites : Bool) (memory : Memory) :
    Gone ctx memory.said (store.remove [memory.ep.text] rewrites) ↔
      Forgettable ctx store rewrites memory := by
  constructor
  · intro gone
    refine ⟨?_, ?_, ?_⟩
    · intro ep curated
      exact gone.process (Memory.loaded ep) (mem_memories _ |>.mpr (Or.inl ⟨ep, curated, rfl⟩))
    · intro live member same
      by_contra other
      have kept : live ∈ (store.remove [memory.ep.text] rewrites).nightshift := by
        apply List.mem_filter.mpr
        exact ⟨member, by simpa using other⟩
      exact gone.process live (mem_memories _ |>.mpr (Or.inr kept)) same
    · intro line member ep loads same
      have dropped : line ∉ (store.remove [memory.ep.text] rewrites).file := fun kept =>
        gone.reload ep (mem_loadRegistry.mpr ⟨line, kept, loads⟩) same
      cases rewrites with
      | false => exact absurd member dropped
      | true =>
          have unkept : line.keeps [memory.ep.text] = false := by
            rw [Bool.eq_false_iff]
            exact fun keeps => dropped (List.mem_filter.mpr ⟨member, keeps⟩)
          cases line with
          | blank => cases loads
          | malformed => cases loads
          | scalar => cases loads
          | row foreign fields =>
              obtain ⟨native, own⟩ := RegistryLine.keeps_row_eq_false.mp unkept
              exact ⟨rfl, fields, by rw [native], own⟩
  · intro ready
    refine ⟨?_, ?_⟩
    · intro other member same
      rcases (mem_memories _).mp member with ⟨ep, curated, rfl⟩ | live
      · exact ready.uncurated ep curated same
      · obtain ⟨before, unlike⟩ := List.mem_filter.mp live
        have alike := ready.alike other before same
        simp [alike] at unlike
    · intro ep loaded same
      obtain ⟨line, kept, loads⟩ := mem_loadRegistry.mp loaded
      obtain ⟨rewritten, fields, native, own⟩ :=
        ready.listed line (remove_file_subset _ _ kept) ep loads same
      have dropped : line.keeps [memory.ep.text] = false := by
        rw [native]
        exact RegistryLine.keeps_row_eq_false.mpr ⟨rfl, own⟩
      rw [remove, if_pos rewritten] at kept
      rw [(List.mem_filter.mp kept).2] at dropped
      cases dropped

/-! ## Later steps -/

theorem remove_gone (gone : Gone ctx said store) (victims : List Text) (rewrites : Bool) :
    Gone ctx said (store.remove victims rewrites) := by
  refine ⟨fun memory member => gone.process memory (remove_memories_subset _ _ member), ?_⟩
  intro ep loaded
  obtain ⟨line, kept, loads⟩ := mem_loadRegistry.mp loaded
  exact gone.reload ep (mem_loadRegistry.mpr ⟨line, remove_file_subset _ _ kept, loads⟩)

/-- The row of a capture loads where its directory is found. -/
theorem row_loads {capture : Capture}
    (found : (episodeDir ctx.tables ctx.disk capture.dir).isSome = true) :
    ∃ ep, loadLine ctx.tables ctx.geo ctx.disk (.row false capture.row) = some ep := by
  obtain ⟨dir, resolved⟩ := Option.isSome_iff_exists.mp found
  obtain ⟨sig, read⟩ := Option.isSome_iff_exists.mp (parseSigHex_sigHex capture.sig)
  simp only [loadLine, loadRow, capture.row_dir, capture.row_sig, read, JsonField.asStr, resolved,
    Option.bind_eq_bind, Option.bind_some, Option.pure_def, Option.some.injEq, exists_eq']

/-- A row of a capture loads with the text the capture was given. -/
theorem loadLine_row {capture : Capture} {ep : Episode}
    (loads : loadLine ctx.tables ctx.geo ctx.disk (.row false capture.row) = some ep) :
    ep.text = capture.said := by
  have own := loadRow_text loads
  rw [capture.row_text, Option.getD_some] at own
  rcases own with same | blank
  · exact same.symm
  · exact absurd blank capture.said_nonempty

theorem capture_gone (gone : Gone ctx said store) {capture : Capture} (other : capture.said ≠ said) :
    Gone ctx said (store.capture ctx.classMap capture) := by
  refine ⟨?_, ?_⟩
  · intro memory member
    rcases (mem_memories _).mp member with curated | live
    · exact gone.process memory ((mem_memories _).mpr (Or.inl curated))
    · rcases List.mem_append.mp live with before | added
      · exact gone.process memory ((mem_memories _).mpr (Or.inr before))
      · rw [List.mem_singleton.mp added]
        exact other
  · intro ep loaded
    obtain ⟨line, member, loads⟩ := mem_loadRegistry.mp loaded
    unfold MemoryStore.capture at member
    simp only at member
    split at member
    next =>
      rcases List.mem_append.mp member with before | added
      · exact gone.reload ep (mem_loadRegistry.mpr ⟨line, before, loads⟩)
      · rw [List.mem_singleton.mp added] at loads
        rw [loadLine_row loads]
        exact other
    next => exact gone.reload ep (mem_loadRegistry.mpr ⟨line, member, loads⟩)

end MemoryStore

open MemoryStore

theorem MemoryStep.serve_gone {ctx : MemoryContext} {said : Text} {step : MemoryStep}
    {store : MemoryStore} (silent : step.Silent said) (gone : Gone ctx said store) :
    Gone ctx said (step.serve ctx store) := by
  cases step with
  | capture added => exact capture_gone gone silent
  | remove removal rewrites =>
      simp only [serve]
      split
      next => exact remove_gone gone _ _
      next => exact gone
  | merge dropA dropB rewrites combined =>
      have dropped := remove_gone gone [dropA, dropB] rewrites
      cases combined with
      | none => exact dropped
      | some added => exact capture_gone dropped silent
  | restart =>
      refine ⟨?_, gone.reload⟩
      intro memory member
      rcases (mem_memories _).mp member with ⟨ep, loaded, rfl⟩ | live
      · exact gone.reload ep loaded
      · cases live

def plainMemoryContext : MemoryContext where
  tables := .ascii
  arith := .exact
  geo := .singleRow
  disk :=
    { isDir := fun _ => true
      windows := false
      epsRoot := none
      coldRoot := none
      moved := []
      epK := fun _ => none
      epL5 := fun _ => none
      l5Tag := fun _ => none
      okf := fun _ => none
      manifest := [] }
  classMap := fun _ => none

def colorCapture (path : CapturePath) : Capture where
  path := path
  said := "My color is blue.".toList
  said_nonempty := by decide
  name := "ep_live_m1"
  dir := "eps/ep_live_m1".toList
  tokens := [2, 10, 11, 12]
  sig := List.replicate 256 false
  gk := []
  gkNg := 0
  l5key := []
  memClass := none
  persisted := true

def colorStore (path : CapturePath) : MemoryStore :=
  serveAll (MemoryStep.serve plainMemoryContext) [.capture (colorCapture path)] ⟨[], [], []⟩

def forgetColor : Removal := .forget "Please forget my color.".toList

/-- A removal of the spelled text leaves the row. -/
theorem colorRow_left :
    ¬ Gone plainMemoryContext (colorCapture .nightshift).said
      ((colorStore .nightshift).remove
        [((colorCapture .nightshift).memory fun _ => none).ep.text] true) := by
  intro gone
  have kept : (RegistryLine.row false (colorCapture .nightshift).row).keeps
      [((colorCapture .nightshift).memory fun _ => none).ep.text] = true := by
    rw [RegistryLine.keeps, (colorCapture .nightshift).row_text]
    decide
  have left : RegistryLine.row false (colorCapture .nightshift).row ∈
      ((colorStore .nightshift).remove
        [((colorCapture .nightshift).memory fun _ => none).ep.text] true).file :=
    List.mem_filter.mpr ⟨List.mem_singleton_self _, kept⟩
  obtain ⟨ep, loads⟩ := @MemoryStore.row_loads plainMemoryContext (colorCapture .nightshift) (rfl)
  exact gone.reload ep (mem_loadRegistry.mpr ⟨_, left, loads⟩) (MemoryStore.loadLine_row loads)

end KairosEngine.Daemon
