import KairosEngine.Daemon.OkfReclass
import KairosEngine.Library.Loop

/-!
# Refining the concept store

`refine_okf_store` looks at the class of a file before it asks the model.  The served episode and
the file are changed after the answer, whatever has become of them meanwhile.
-/

namespace KairosEngine.Daemon

open KairosEngine.Library KairosEngine.Swarm

/-! ## The store and its three parties -/

/-- Where `refine_okf_store` is with a file: read, decided on, changed in memory, read again by
`rewrite_okf_class`. -/
inductive RefinePhase
  | idle
  | read (addr : String) (raw : Text)
  | decided (addr : String) (raw : Text) (new : String)
  | updated (addr : String) (raw : Text) (new : String)
  | copied (addr : String) (raw : Text) (new : String) (again : Text)

/-- The text on which the class was decided, and the class. -/
def RefinePhase.decision : RefinePhase → Option (Text × String)
  | .idle => none
  | .read _ _ => none
  | .decided _ raw new => some (raw, new)
  | .updated _ raw new => some (raw, new)
  | .copied _ raw new _ => some (raw, new)

/-- A pass of `load_and_mint_okf_store`: the names it found in the live list, the file it has read
and the episodes it will add. -/
structure OkfReload where
  already : List String
  held : Option (String × Text)
  eps : List Episode

structure OkfStore where
  files : String → Option Text
  nightshift : List Episode
  refining : RefinePhase
  reload : OkfReload

inductive OkfStep
  /-- Another writer puts a file in the place of the old one. -/
  | write (addr : String) (text : Text)
  | reloadStart
  | reloadRead (addr : String)
  | reloadMerge (l5key : Option (List Ieee))
  | reloadEnd
  | read (addr : String)
  | classify (reply : Option Text)
  | update
  | copy
  | rename (written : Bool)

/-- What the parties share and never change. -/
structure OkfContext where
  tables : Unicode
  classMap : String → Option String
  full : String
  hd : Nat

/-- The categories that `model_classify` looks for, in this order. -/
def okfClasses : List String :=
  ["private-secret", "persona", "preference", "counterfact", "episodic-event", "fact"]

namespace OkfContext

variable (ctx : OkfContext)

/-- What `model_classify` makes of the reply. -/
def modelClassify (reply : Text) : Option String :=
  okfClasses.find? fun c =>
    textContains c.toList (ctx.tables.toLowercase (ctx.tables.trim reply))

/-- The class that a concept file states. -/
def okfClass (text : Text) : Option String :=
  (parseOkfPolicy ctx.tables text).map MemPolicy.className

/-- The episode that `load_and_mint_okf_store` adds for a file. -/
def okfEpisode (addr : String) (raw : Text) (l5key : List Ieee) : Episode where
  name := addr
  dir := ctx.full ++ "/" ++ addr ++ ".md"
  npos := 0
  topic := (okfBody ctx.tables raw).take 40
  text := okfBody ctx.tables raw
  sig := List.replicate 256 false
  gk := []
  gkNg := 0
  tokens := none
  l5key
  policy := parseOkfPolicy ctx.tables raw
  lifecycle := 0

end OkfContext

/-- `iter_mut().find` by the name, and what is done to the episode found. -/
def changeNamed (addr : String) (change : Episode → Episode) (eps : List Episode) : List Episode :=
  eps.modify (eps.findIdx fun ep => decide (ep.name = addr)) change

def Episode.className (ep : Episode) : Option String := ep.policy.map MemPolicy.className

/-- The pass of `load_and_mint_okf_store` on the file it holds. -/
def OkfStore.merge (ctx : OkfContext) (l5key : Option (List Ieee)) (store : OkfStore) : OkfStore :=
  match store.reload.held with
  | none => store
  | some (addr, raw) =>
      let policy := parseOkfPolicy ctx.tables raw
      let reload := { store.reload with held := none }
      if addr ∈ store.reload.already then
        { store with
          nightshift := changeNamed addr (fun ep =>
            if ep.className = policy.map MemPolicy.className then ep else { ep with policy })
            store.nightshift
          reload }
      else
        match l5key with
        | none => { store with reload }
        | some key =>
            if okfBody ctx.tables raw = [] ∨ key.length ≠ ctx.hd then { store with reload }
            else
              { store with
                reload := { reload with eps := reload.eps ++ [ctx.okfEpisode addr raw key] } }

/-- What `refine_okf_store` does with the answer of the model. -/
def OkfContext.decideClass (ctx : OkfContext) (addr : String) (raw : Text) (reply : Option Text) :
    RefinePhase :=
  match reply.bind ctx.modelClassify with
  | none => .idle
  | some new =>
      let cur := ctx.okfClass raw
      if cur = some new then .idle
      else if cur = some "private-secret" ∧ new ≠ "private-secret" then .idle
      else .decided addr raw new

/-- One step of the other writer, of the reconciler or of the pass; a step whose turn it is not
changes nothing. -/
def OkfStep.serve (ctx : OkfContext) (step : OkfStep) (store : OkfStore) : OkfStore :=
  match step with
  | .write addr text => { store with files := Function.update store.files addr (some text) }
  | .reloadStart =>
      { store with
        reload := { already := store.nightshift.map Episode.name, held := none, eps := [] } }
  | .reloadRead addr =>
      { store with
        reload := { store.reload with held := (store.files addr).map fun raw => (addr, raw) } }
  | .reloadMerge l5key => store.merge ctx l5key
  | .reloadEnd =>
      { store with
        nightshift := store.nightshift ++ store.reload.eps
        reload := { store.reload with eps := [] } }
  | .read addr =>
      match store.refining, store.files addr with
      | .idle, some raw =>
          if okfBody ctx.tables raw = [] then store
          else { store with refining := .read addr raw }
      | _, _ => store
  | .classify reply =>
      match store.refining with
      | .read addr raw => { store with refining := ctx.decideClass addr raw reply }
      | _ => store
  | .update =>
      match store.refining with
      | .decided addr raw new =>
          { store with
            nightshift := changeNamed addr
              (fun ep => { ep with policy := some (MemPolicy.fromClass ctx.classMap new) })
              store.nightshift
            refining := .updated addr raw new }
      | _ => store
  | .copy =>
      match store.refining with
      | .updated addr raw new =>
          match store.files addr with
          | some again => { store with refining := .copied addr raw new again }
          | none => { store with refining := .idle }
      | _ => store
  | .rename written =>
      match store.refining with
      | .copied addr _ new again =>
          { store with
            files :=
              if written then
                Function.update store.files addr
                  (some (rewriteOkfClass ctx.tables ctx.classMap new again))
              else store.files
            refining := .idle }
      | _ => store

/-! ## What is asked of the pass -/

def OkfContext.SaysSecret (ctx : OkfContext) (text : Text) : Prop :=
  ctx.okfClass text = some "private-secret"

def Episode.Secret (ep : Episode) : Prop := ep.className = some "private-secret"

/-- Every file and every served episode that is private-secret stays so, and keeps its place. -/
structure KeepsSecrets (ctx : OkfContext) (before after : OkfStore) : Prop where
  files : ∀ addr text, before.files addr = some text → ctx.SaysSecret text →
    ∃ later, after.files addr = some later ∧ ctx.SaysSecret later
  served : ∀ (index : Nat) (ep : Episode), before.nightshift[index]? = some ep → ep.Secret →
    ∃ policy, after.nightshift[index]? = some { ep with policy } ∧
      policy.map MemPolicy.className = some "private-secret"

namespace OkfStep

def OfPass : OkfStep → Prop
  | .read _ => True
  | .classify _ => True
  | .update => True
  | .copy => True
  | .rename _ => True
  | _ => False

/-- A step of the pass leaves what is private-secret private-secret. -/
def NeverDowngrades (ctx : OkfContext) (step : OkfStep) (store : OkfStore) : Prop :=
  step.OfPass → KeepsSecrets ctx store (step.serve ctx store)

/-- What the pass has read is still served and still in the file when it changes them, or what has
come in its place is not private-secret, or it becomes private-secret again. -/
def Careful (ctx : OkfContext) (step : OkfStep) (store : OkfStore) : Prop :=
  match step, store.refining with
  | .update, .decided addr raw new =>
      new = "private-secret" ∨
        ∀ ep ∈ store.nightshift.find? (fun ep => decide (ep.name = addr)),
          ep.className = ctx.okfClass raw ∨ ¬ ep.Secret
  | .rename true, .copied addr raw new again =>
      store.files addr = some raw ∨ (∀ text ∈ store.files addr, ¬ ctx.SaysSecret text) ∨
        (new = "private-secret" ∧ closesFront ctx.tables again = true ∧
          '\n' ∉ (MemPolicy.fromClass ctx.classMap "private-secret").delivery.toList)
  | _, _ => True

end OkfStep

/-- The class was decided on a text that does not say private-secret. -/
def OkfStore.Decided (ctx : OkfContext) (store : OkfStore) : Prop :=
  ∀ decision ∈ store.refining.decision, ¬ ctx.SaysSecret decision.1

/-! ## The steps -/

theorem KeepsSecrets.of_same {ctx : OkfContext} {before after : OkfStore}
    (files : after.files = before.files) (served : after.nightshift = before.nightshift) :
    KeepsSecrets ctx before after where
  files _ text inside secret := ⟨text, files ▸ inside, secret⟩
  served _ ep inside secret := ⟨ep.policy, served ▸ inside, secret⟩

/-- The classes that are served keep private-secret where it stands. -/
theorem KeepsSecrets.classes {ctx : OkfContext} {before after : OkfStore}
    (keeps : KeepsSecrets ctx before after) {index : Nat}
    (secret : (before.nightshift.map Episode.className)[index]? = some (some "private-secret")) :
    (after.nightshift.map Episode.className)[index]? = some (some "private-secret") := by
  rw [List.getElem?_map] at secret
  obtain ⟨ep, inside, class_⟩ := Option.map_eq_some_iff.mp secret
  obtain ⟨policy, found, kept⟩ := keeps.served index ep inside class_
  rw [List.getElem?_map, found]
  exact congrArg some kept

/-- The header that `rewrite_okf_class` closes again says what was decided. -/
theorem saysSecret_rewriteOkfClass {ctx : OkfContext} (ascii : AsciiSpace ctx.tables) {text : Text}
    (closed : closesFront ctx.tables text = true)
    (deliveryLine : '\n' ∉ (MemPolicy.fromClass ctx.classMap "private-secret").delivery.toList) :
    ctx.SaysSecret (rewriteOkfClass ctx.tables ctx.classMap "private-secret" text) := by
  obtain ⟨before, inner, single, plain, ⟨file⟩, rewritten⟩ := closesFront_spec closed
  have classLine : '\n' ∉ "private-secret".toList := by decide
  have policy := parseOkfPolicy_rewriteOkfClass ascii file classLine deliveryLine (.inl rfl)
  have visible : ctx.tables.trim "private-secret".toList = "private-secret".toList :=
    ascii.trim_visible (by decide)
  rw [OkfContext.SaysSecret, OkfContext.okfClass, rewritten,
    parseOkfPolicy_preamble ascii single plain, policy, visible]
  rfl

/-- Only the first episode of the name is changed. -/
theorem changeNamed_getElem? {addr : String} {change : Episode → Episode} {eps : List Episode}
    {index : Nat} {ep : Episode} (inside : eps[index]? = some ep) :
    (changeNamed addr change eps)[index]? = some ep ∨
      eps.find? (fun ep => decide (ep.name = addr)) = some ep ∧
        (changeNamed addr change eps)[index]? = some (change ep) := by
  let named : Episode → Bool := fun ep => decide (ep.name = addr)
  have changed : (changeNamed addr change eps)[index]? =
      some (if eps.findIdx named = index then change ep else ep) := by
    rw [changeNamed, List.getElem?_modify, inside]
    rfl
  by_cases here : eps.findIdx named = index
  · subst here
    rw [if_pos rfl] at changed
    obtain ⟨below, same⟩ := List.getElem?_eq_some_iff.mp inside
    refine .inr ⟨List.find?_eq_some_iff_getElem.mpr ⟨?_, _, below, same, ?_⟩, changed⟩
    · exact same ▸ List.findIdx_getElem (w := below)
    · exact fun earlier before => (Bool.not_eq_true' _).mpr (List.not_of_lt_findIdx before)
  · rw [if_neg here] at changed
    exact .inl changed

theorem merge_refining (ctx : OkfContext) (l5key : Option (List Ieee)) (store : OkfStore) :
    (store.merge ctx l5key).refining = store.refining := by
  unfold OkfStore.merge
  split
  · rfl
  · dsimp only
    split
    · rfl
    · split
      · rfl
      · split
        · rfl
        · rfl

theorem decideClass_decision {ctx : OkfContext} {addr : String} {raw : Text} {reply : Option Text} :
    ∀ decision ∈ (ctx.decideClass addr raw reply).decision, ¬ ctx.SaysSecret decision.1 := by
  intro decision found
  unfold OkfContext.decideClass at found
  split at found
  · cases found
  next new answered =>
    dsimp only at found
    split at found
    · cases found
    next differs =>
      split at found
      · cases found
      next allowed =>
        cases found
        intro secret
        -- a private-secret text goes on only with a class that is private-secret, which it has
        by_cases same : new = "private-secret"
        · exact differs (secret.trans (congrArg some same.symm))
        · exact allowed ⟨secret, same⟩

/-- A class is settled on only for a text that does not say private-secret. -/
theorem OkfStore.Decided.kept {ctx : OkfContext} {store : OkfStore} (decided : store.Decided ctx)
    (step : OkfStep) : (step.serve ctx store).Decided ctx := by
  cases step with
  | write addr text => exact decided
  | reloadStart => exact decided
  | reloadRead addr => exact decided
  | reloadMerge l5key =>
      unfold OkfStore.Decided OkfStep.serve
      rw [merge_refining]
      exact decided
  | reloadEnd => exact decided
  | read addr =>
      unfold OkfStep.serve
      dsimp only
      split
      · split
        · exact decided
        · exact fun decision found => nomatch found
      · exact decided
  | classify reply =>
      unfold OkfStep.serve
      dsimp only
      split
      · exact decideClass_decision
      · exact decided
  | update =>
      unfold OkfStep.serve
      dsimp only
      split
      next phase =>
        unfold OkfStore.Decided at decided
        rw [phase] at decided
        exact decided
      next => exact decided
  | copy =>
      unfold OkfStep.serve
      dsimp only
      split
      next phase =>
        unfold OkfStore.Decided at decided
        rw [phase] at decided
        split
        · exact decided
        · exact fun decision found => nomatch found
      next => exact decided
  | rename written =>
      unfold OkfStep.serve
      dsimp only
      split
      · exact fun decision found => nomatch found
      · exact decided

/-- A careful policy update leaves the private-secret episodes private-secret. -/
theorem keepsSecrets_update {ctx : OkfContext} {store : OkfStore}
    (careful : OkfStep.Careful ctx .update store) (decided : store.Decided ctx) :
    KeepsSecrets ctx store (OkfStep.update.serve ctx store) := by
  unfold OkfStep.serve
  dsimp only
  split
  next addr raw new phase =>
    have settled : ¬ ctx.SaysSecret raw := decided (raw, new) (by rw [phase]; rfl)
    simp only [OkfStep.Careful, phase] at careful
    refine ⟨fun _ text inside secret => ⟨text, inside, secret⟩, fun index ep inside secret => ?_⟩
    rcases changeNamed_getElem? inside with same | ⟨found, changed⟩
    · exact ⟨ep.policy, same, secret⟩
    · have again : new = "private-secret" := by
        rcases careful with same | first
        · exact same
        · rcases first ep found with unchanged | open_
          · exact absurd (unchanged.symm.trans secret) settled
          · exact absurd secret open_
      refine ⟨_, changed, ?_⟩
      exact congrArg some again
  next => exact KeepsSecrets.of_same rfl rfl

/-- A careful rename leaves the private-secret files private-secret. -/
theorem keepsSecrets_rename {ctx : OkfContext} (ascii : AsciiSpace ctx.tables) {written : Bool}
    {store : OkfStore} (careful : OkfStep.Careful ctx (.rename written) store)
    (decided : store.Decided ctx) :
    KeepsSecrets ctx store ((OkfStep.rename written).serve ctx store) := by
  unfold OkfStep.serve
  dsimp only
  split
  next addr raw new again phase =>
    cases written with
    | false => exact KeepsSecrets.of_same rfl rfl
    | true =>
        have settled : ¬ ctx.SaysSecret raw := decided (raw, new) (by rw [phase]; rfl)
        simp only [OkfStep.Careful, phase] at careful
        refine ⟨fun other text inside secret => ?_, fun _ ep inside secret =>
          ⟨ep.policy, inside, secret⟩⟩
        by_cases here : other = addr
        · subst here
          rcases careful with unchanged | open_ | ⟨rfl, closed, deliveryLine⟩
          · cases unchanged.symm.trans inside
            exact absurd secret settled
          · exact absurd secret (open_ text inside)
          · exact ⟨_, Function.update_self .., saysSecret_rewriteOkfClass ascii closed deliveryLine⟩
        · refine ⟨text, ?_, secret⟩
          exact (Function.update_of_ne here ..).trans inside
  next => exact KeepsSecrets.of_same rfl rfl

/-- Reading a file and deciding on it change neither the files nor what is served. -/
theorem keepsSecrets_look {ctx : OkfContext} {store : OkfStore} {step : OkfStep}
    (looks : (∃ addr, step = .read addr) ∨ (∃ reply, step = .classify reply) ∨ step = .copy) :
    KeepsSecrets ctx store (step.serve ctx store) := by
  have same : (step.serve ctx store).files = store.files ∧
      (step.serve ctx store).nightshift = store.nightshift := by
    rcases looks with ⟨addr, rfl⟩ | ⟨reply, rfl⟩ | rfl
    all_goals
      unfold OkfStep.serve
      dsimp only
      split
    · split
      · exact ⟨rfl, rfl⟩
      · exact ⟨rfl, rfl⟩
    · exact ⟨rfl, rfl⟩
    · exact ⟨rfl, rfl⟩
    · exact ⟨rfl, rfl⟩
    · split
      · exact ⟨rfl, rfl⟩
      · exact ⟨rfl, rfl⟩
    · exact ⟨rfl, rfl⟩
  exact KeepsSecrets.of_same same.1 same.2

theorem OkfStep.Careful.neverDowngrades {ctx : OkfContext} (ascii : AsciiSpace ctx.tables)
    {step : OkfStep} {store : OkfStore} (careful : step.Careful ctx store)
    (decided : store.Decided ctx) : step.NeverDowngrades ctx store := by
  cases step with
  | write addr text => exact False.elim
  | reloadStart => exact False.elim
  | reloadRead addr => exact False.elim
  | reloadMerge l5key => exact False.elim
  | reloadEnd => exact False.elim
  | read addr => exact fun _ => keepsSecrets_look (.inl ⟨addr, rfl⟩)
  | classify reply => exact fun _ => keepsSecrets_look (.inr (.inl ⟨reply, rfl⟩))
  | update => exact fun _ => keepsSecrets_update careful decided
  | copy => exact fun _ => keepsSecrets_look (.inr (.inr rfl))
  | rename written => exact fun _ => keepsSecrets_rename ascii careful decided

/-- In a run whose steps are careful no step of the pass takes private-secret from a file or from a
served episode. -/
theorem refineOkfStore_neverDowngrades (ctx : OkfContext) (ascii : AsciiSpace ctx.tables)
    (steps : List OkfStep) (store : OkfStore) (idle : store.refining = .idle)
    (careful : GuardedRun (OkfStep.serve ctx) (OkfStep.Careful ctx) steps store) :
    GuardedRun (OkfStep.serve ctx) (OkfStep.NeverDowngrades ctx) steps store := by
  have start : store.Decided ctx := by
    intro decision found
    rw [idle] at found
    cases found
  have kept : ∀ step store, OkfStep.Careful ctx step store → OkfStore.Decided ctx store →
      OkfStore.Decided ctx (step.serve ctx store) := fun step _ _ decided => decided.kept step
  have gives : ∀ step store, OkfStep.Careful ctx step store → OkfStore.Decided ctx store →
      OkfStep.NeverDowngrades ctx step store := fun _ _ careful decided =>
    careful.neverDowngrades ascii decided
  exact GuardedRun.establishes kept gives careful start

/-- A context without a class map, for keys of no length. -/
def bareContext : OkfContext where
  tables := Unicode.ascii
  classMap := fun _ => none
  full := "full"
  hd := 0

def factFile : Text := "---\nmem_class: fact\n---\nThe code is 4411.\n".toList

def secretFile : Text := "---\nmem_class: private-secret\n---\nThe code is 4411.\n".toList

/-- One fact, in its file and served. -/
def factStore : OkfStore where
  files addr := if addr = "m" then some factFile else none
  nightshift := [bareContext.okfEpisode "m" factFile []]
  refining := .idle
  reload := ⟨[], none, []⟩

/-- The other writer and the model find the secret at the same time. -/
def agreedRun : List OkfStep :=
  [.read "m", .write "m" secretFile, .classify (some " Private-Secret\n".toList), .update, .copy,
    .rename true]

theorem refineOkfStore_neverDowngrades_agreed :
    GuardedRun (OkfStep.serve bareContext) (OkfStep.NeverDowngrades bareContext) agreedRun
        factStore ∧
      ((serveAll (OkfStep.serve bareContext) agreedRun factStore).files "m").bind
          bareContext.okfClass = some "private-secret" ∧
      (serveAll (OkfStep.serve bareContext) agreedRun factStore).nightshift.map
          Episode.className = [some "private-secret"] := by
  refine ⟨?_, by decide +kernel, by decide +kernel⟩
  apply refineOkfStore_neverDowngrades bareContext AsciiSpace.of_ascii agreedRun factStore rfl
  exact ⟨trivial, trivial, trivial, .inl rfl, trivial,
    .inr (.inr ⟨rfl, by decide +kernel, by decide +kernel⟩), trivial⟩

/-- While the model is asked, the other writer and the reconciler make the memory private-secret. -/
def outrunLead : List OkfStep :=
  [.read "m", .write "m" secretFile, .reloadStart, .reloadRead "m", .reloadMerge none, .reloadEnd,
    .classify (some "persona".toList)]

def outrunRun : List OkfStep := outrunLead ++ [.update, .copy, .rename true]

/-- The served episode is private-secret up to the update, the file up to the rename. -/
theorem refineOkfStore_downgrades :
    let reached := fun count =>
      serveAll (OkfStep.serve bareContext) (outrunRun.take count) factStore
    (reached 7).nightshift.map Episode.className = [some "private-secret"] ∧
      (reached 8).nightshift.map Episode.className = [some "persona"] ∧
      ((reached 9).files "m").bind bareContext.okfClass = some "private-secret" ∧
      ((reached 10).files "m").bind bareContext.okfClass = some "persona" ∧
      ¬ GuardedRun (OkfStep.serve bareContext) (OkfStep.NeverDowngrades bareContext) outrunRun
        factStore := by
  have secret : (serveAll (OkfStep.serve bareContext) (outrunRun.take 7) factStore).nightshift.map
      Episode.className = [some "private-secret"] := by decide +kernel
  have persona : (serveAll (OkfStep.serve bareContext) (outrunRun.take 8)
      factStore).nightshift.map Episode.className = [some "persona"] := by decide +kernel
  refine ⟨secret, persona, by decide +kernel, by decide +kernel, fun safe => ?_⟩
  obtain ⟨-, update, -⟩ := GuardedRun.append_iff.mp safe
  have still := (update trivial).classes (congrArg (fun classes => classes[0]?) secret)
  have lost := congrArg (fun classes => classes[0]?) persona
  exact absurd (still.symm.trans lost) (by decide)

end KairosEngine.Daemon
