import KairosEngine.Library.FillMissing
import KairosEngine.Swarm.PullAccount

/-!
# Pulls between the nodes of a mesh

A store as the map from its addresses to their texts.  A pull fills in the addresses that the
client lacks and never looks at one that it holds, so episodes that differ under one address
stay as they are.
-/

namespace KairosEngine.Swarm

open KairosEngine.Library KairosEngine.Daemon FillMissing

/-! ## Stores of objects -/

/-- An address that a list carries as it is. -/
structure Listable (addr : Text) : Prop where
  plain : Plain addr
  proper : addr ≠ [] ∧ '\n' ∉ addr ∧ '\r' ∉ addr

/-- A directory tree whose `full/`, if it is there, holds accepted objects only. -/
structure Orderly (tables : Unicode) {Key : Type} (crypto : Crypto Key) (roster : Roster Key)
    (root : Path) (volume : Volume) : Prop where
  rooted : volume.Rooted
  reachable : Reachable root volume
  flat : ∀ name, volume.isDir (fullDir root ++ [name]) = false
  objects : ∀ name bytes, volume.fileAt (fullDir root ++ [name]) = some bytes →
    ∃ addr text, name = utf8 (addr ++ ".md".toList) ∧ bytes = utf8 text ∧ Listable addr ∧
      Accepted tables crypto roster addr text

/-- The text of an object. -/
def held (root : Path) (volume : Volume) (addr : Text) : Option Text :=
  (volume.fileAt (objectFile root addr)).bind fromUtf8

theorem held_eq_some_iff {root : Path} {volume : Volume} {addr text : Text} :
    held root volume addr = some text ↔
      volume.fileAt (objectFile root addr) = some (utf8 text) := by
  rw [held, Option.bind_eq_some_iff]
  constructor
  · rintro ⟨bytes, stored, decoded⟩
    rw [stored, fromUtf8_eq_some_iff.mp decoded]
  · intro stored
    exact ⟨utf8 text, stored, fromUtf8_utf8 text⟩

section Store

variable {tables : Unicode} {Key : Type} {crypto : Crypto Key} {roster : Roster Key}
variable {root : Path} {volume : Volume} {addr text : Text}

namespace Orderly

theorem stored (orderly : Orderly tables crypto roster root volume) {bytes : Bytes}
    (file : volume.fileAt (objectFile root addr) = some bytes) :
    Listable addr ∧ ∃ text, bytes = utf8 text ∧ Accepted tables crypto roster addr text := by
  obtain ⟨other, text, name, rfl, listable, accepted⟩ := orderly.objects _ _ file
  have same : addr = other := objectFile_injective (congrArg (fun name => fullDir root ++ [name]) name)
  rw [same]
  exact ⟨listable, text, rfl, accepted⟩

theorem held_spec (orderly : Orderly tables crypto roster root volume)
    (known : held root volume addr = some text) :
    Listable addr ∧ Accepted tables crypto roster addr text := by
  obtain ⟨listable, other, same, accepted⟩ := orderly.stored (held_eq_some_iff.mp known)
  rw [utf8_injective same]
  exact ⟨listable, accepted⟩

/-- Where an object is, `full/` is reached. -/
theorem reached (orderly : Orderly tables crypto roster root volume)
    (known : held root volume addr = some text) :
    ∀ place, place <+: fullDir root → volume.isDir place = true := by
  apply orderly.rooted.above
  exact orderly.rooted (fullDir root) _
    (Tree.entryAt_ne_none_of_fileAt (held_eq_some_iff.mp known))

theorem mem_haveAddrs_iff (orderly : Orderly tables crypto roster root volume) :
    addr ∈ haveAddrs root volume ↔ held root volume addr ≠ none := by
  constructor
  · intro member
    rw [haveAddrs, List.mem_dedup, List.mem_filterMap] at member
    obtain ⟨name, listed, named⟩ := member
    unfold listing at listed
    split at listed
    next =>
      rcases Tree.entryAt_cases (Tree.mem_names_iff.mp listed) with directory | ⟨bytes, file⟩
      · rw [orderly.flat name] at directory
        cases directory
      · obtain ⟨other, text, rfl, rfl, _, _⟩ := orderly.objects name bytes file
        rw [objectAddr_utf8, Option.some.injEq] at named
        rw [← named, held_eq_some_iff.mpr file]
        exact Option.some_ne_none text
    next => cases listed
  · intro known
    obtain ⟨text, known⟩ := Option.ne_none_iff_exists'.mp known
    exact mem_haveAddrs (orderly.reached known) (held_eq_some_iff.mp known)

/-- The lines of the list are the addresses. -/
theorem mem_textLines_iff (orderly : Orderly tables crypto roster root volume) :
    addr ∈ textLines (haveSet root volume) ↔ held root volume addr ≠ none := by
  rw [haveSet, textLines_intercalate, stableSort_perm.mem_iff, orderly.mem_haveAddrs_iff]
  intro line member
  rw [stableSort_perm.mem_iff, orderly.mem_haveAddrs_iff] at member
  obtain ⟨text, known⟩ := Option.ne_none_iff_exists'.mp member
  exact (orderly.held_spec known).1.proper

theorem getReply_held (orderly : Orderly tables crypto roster root volume)
    (known : held root volume addr = some text) : getReply root volume addr = utf8 text := by
  have plain := (orderly.held_spec known).1.plain
  have reached : volume.follow [] (objectHops root addr) = some (target [] (objectHops root addr)) := by
    rw [objectHops_plain plain.1]
    apply Tree.follow_eq_some_iff.mpr
    refine ⟨fun place visited => ?_, rfl⟩
    exact orderly.reached known place (mem_visits_down.mp visited)
  have place : target [] (objectHops root addr) ++ [objectName addr] = objectFile root addr :=
    objectPath_plain plain.1
  rw [getReply, readObject, if_neg plain.2, reached, Option.bind_some, place,
    held_eq_some_iff.mp known]
  rfl

/-- Storing an accepted object keeps a store orderly. -/
theorem storeObject (orderly : Orderly tables crypto roster root volume) (listable : Listable addr)
    (accepted : Accepted tables crypto roster addr text) :
    Orderly tables crypto roster root (storeObject root volume addr text) := by
  refine ⟨?_, storeObject_reachable text listable.plain orderly.reachable,
    fun name => storeObject_flat text (orderly.flat name), ?_⟩
  · rw [Swarm.storeObject, if_neg listable.plain.2]
    exact (orderly.rooted.makeDirs (fullDir root) rfl).write _ _ _
  · intro name bytes file
    rcases storeObject_fileAt file with before | ⟨_, path, rfl⟩
    · exact orderly.objects name bytes before
    · rw [objectPath_plain listable.plain.1] at path
      exact ⟨addr, text, List.singleton_inj.mp (List.append_inj' path rfl).2, rfl, listable,
        accepted⟩

end Orderly

/-- An accepted text is not the reply that says an object is missing. -/
theorem accepted_ne_miss (accepted : Accepted tables crypto roster addr text) :
    utf8 text ≠ utf8 "MISS".toList := by
  intro same
  rw [utf8_injective same] at accepted
  obtain ⟨cls, accepted⟩ := accepted
  have parsed : parseFm tables "MISS".toList = ([], "MISS".toList) := rfl
  rw [accept, parsed] at accepted
  simp only at accepted
  split at accepted
  · cases accepted
  · cases accepted

section Fetch

variable {disk : Text → Bool}

/-- An accepted object is written and reported. -/
theorem fetchOn_accepted {state : Sync} (accepted : Accepted tables crypto roster addr text)
    (carried : disk addr = true) :
    (fetchOn tables crypto roster root disk (addr, utf8 text) state).pulled =
        state.pulled ++ [addr] ∧
      (fetchOn tables crypto roster root disk (addr, utf8 text) state).volume =
        storeObject root state.volume addr text := by
  obtain ⟨cls, known⟩ := accepted
  have present := accepted_ne_miss ⟨cls, known⟩
  simp only [fetchOn, if_pos carried, fetchOne, if_neg present, fromUtf8Lossy_utf8, known, and_self]

/-- A reply that is an accepted object under an address that a list carries. -/
def Sound (tables : Unicode) (crypto : Crypto Key) (roster : Roster Key) (request : Text × Bytes) :
    Prop :=
  Listable request.1 ∧ ∃ text, request.2 = utf8 text ∧
    Accepted tables crypto roster request.1 text

theorem serveAll_sound {requests : List (Text × Bytes)} {state : Sync}
    (sound : ∀ request ∈ requests, Sound tables crypto roster request)
    (carried : ∀ request ∈ requests, disk request.1 = true)
    (orderly : Orderly tables crypto roster root state.volume) :
    (serveAll (fetchOn tables crypto roster root disk) requests state).pulled =
        state.pulled ++ requests.map Prod.fst ∧
      Orderly tables crypto roster root
        (serveAll (fetchOn tables crypto roster root disk) requests state).volume := by
  induction requests generalizing state with
  | nil => exact ⟨(List.append_nil _).symm, orderly⟩
  | cons request rest inductionHypothesis =>
      rw [List.forall_mem_cons] at sound carried
      obtain ⟨addr, bytes⟩ := request
      obtain ⟨listable, text, rfl, accepted⟩ := sound.1
      obtain ⟨pulled, volume⟩ :=
        @fetchOn_accepted tables Key crypto roster root addr text disk state accepted carried.1
      have next := orderly.storeObject listable accepted
      rw [← volume] at next
      obtain ⟨laterPulled, laterOrderly⟩ := inductionHypothesis sound.2 carried.2 next
      refine ⟨?_, laterOrderly⟩
      rw [serveAll, laterPulled, pulled, List.map_cons, List.append_assoc]
      rfl

/-- Every request is answered with what the server has at that moment. -/
theorem mem_requestsFrom {server : Server} {number : Nat} {wanted : List Text}
    {request : Text × Bytes} (member : request ∈ requestsFrom server number wanted) :
    request.1 ∈ wanted ∧ ∃ later, request.2 = getReply server.root (server.stores later) request.1 := by
  induction wanted generalizing number with
  | nil => cases member
  | cons addr rest inductionHypothesis =>
      rw [requestsFrom] at member
      rcases List.mem_cons.mp member with rfl | behind
      · exact ⟨List.mem_cons_self, number, rfl⟩
      · obtain ⟨wanted, reply⟩ := inductionHypothesis behind
        exact ⟨List.mem_cons_of_mem addr wanted, reply⟩

end Fetch

end Store

/-! ## Pulls -/

/-- A run of `pull_from`: which nodes, in which order the wanted set is visited, and which writes
its disk carries out. -/
structure Pull (Node : Type) where
  client : Node
  server : Node
  order : HashOrder
  disk : Text → Bool

def Pull.pair {Node : Type} (pull : Pull Node) : Node × Node := (pull.client, pull.server)

section Mesh

variable {Node : Type} (tables : Unicode) {Key : Type} (crypto : Crypto Key)
variable (roster : Roster Key) (roots : Node → Path)

/-- The server of a pull, whose store rests. -/
def Pull.peer (pull : Pull Node) (stores : Node → Volume) : Server :=
  ⟨roots pull.server, fun _ => stores pull.server⟩

/-- What the client of a pull ends with. -/
def Pull.result (pull : Pull Node) (stores : Node → Volume) : Volume :=
  (pullOver tables (pull.peer roots stores) crypto roster (roots pull.client) pull.disk pull.order
    (stores pull.client)).2.volume

def runPull [DecidableEq Node] (pull : Pull Node) (stores : Node → Volume) : Node → Volume :=
  Function.update stores pull.client (pull.result tables crypto roster roots stores)

/-- No frame is above the limit, and the disk takes what it is given. -/
structure Completes (pull : Pull Node) (stores : Node → Volume) : Prop where
  small : SmallFrames tables (pull.peer roots stores) (roots pull.client) pull.order
    (stores pull.client)
  carried : ∀ addr ∈ wantedFrom tables (pull.peer roots stores) (roots pull.client) pull.order
    (stores pull.client), pull.disk addr = true

/-- What every node holds. -/
def view (stores : Node → Volume) : Node → Text → Option Text :=
  fun node => held (roots node) (stores node)

def AllOrderly (stores : Node → Volume) : Prop :=
  ∀ node, Orderly tables crypto roster (roots node) (stores node)

end Mesh

section Runs

variable {Node : Type} {tables : Unicode} {Key : Type} {crypto : Crypto Key}
variable {roster : Roster Key} {roots : Node → Path} {stores : Node → Volume} {pull : Pull Node}

/-- An address is wanted when the server has it and the client has not. -/
theorem mem_wanted_iff (orderly : AllOrderly tables crypto roster roots stores) {addr : Text} :
    addr ∈ wantedFrom tables (pull.peer roots stores) (roots pull.client) pull.order
        (stores pull.client) ↔
      view roots stores pull.server addr ≠ none ∧ view roots stores pull.client addr = none := by
  rw [mem_wantedFrom, (orderly pull.client).mem_haveAddrs_iff, not_not]
  have listed := @Orderly.mem_textLines_iff _ _ _ _ _ _ addr (orderly pull.server)
  constructor
  · rintro ⟨line, _, lacking⟩
    exact ⟨listed.mp line, lacking⟩
  · rintro ⟨known, lacking⟩
    refine ⟨listed.mpr known, ?_, lacking⟩
    obtain ⟨text, known⟩ := Option.ne_none_iff_exists'.mp known
    exact ((orderly pull.server).held_spec known).1.proper.1

/-- The replies of an orderly store. -/
theorem sound_requests (orderly : AllOrderly tables crypto roster roots stores)
    {request : Text × Bytes}
    (member : request ∈ requestsFrom (pull.peer roots stores) 1
      (wantedFrom tables (pull.peer roots stores) (roots pull.client) pull.order
        (stores pull.client))) :
    ∃ text, view roots stores pull.server request.1 = some text ∧ request.2 = utf8 text ∧
      Sound tables crypto roster request := by
  obtain ⟨wanted, _, reply⟩ := mem_requestsFrom member
  obtain ⟨text, known⟩ :=
    Option.ne_none_iff_exists'.mp ((mem_wanted_iff orderly).mp wanted).1
  have same : request.2 = utf8 text := reply.trans ((orderly pull.server).getReply_held known)
  obtain ⟨listable, accepted⟩ := (orderly pull.server).held_spec known
  exact ⟨text, known, same, listable, text, same, accepted⟩

theorem result_spec (orderly : AllOrderly tables crypto roster roots stores)
    (completes : Completes tables roots pull stores) :
    Orderly tables crypto roster (roots pull.client)
        (pull.result tables crypto roster roots stores) ∧
      ∀ addr, held (roots pull.client) (pull.result tables crypto roster roots stores) addr =
        (view roots stores pull.client addr).or (view roots stores pull.server addr) := by
  set wanted := wantedFrom tables (pull.peer roots stores) (roots pull.client) pull.order
    (stores pull.client) with wantedIs
  set requests := requestsFrom (pull.peer roots stores) 1 wanted with requestsIs
  have names : requests.map Prod.fst = wanted := map_fst_requestsFrom 1 wanted
  have listed : ∀ request ∈ requests, request.1 ∈ wanted := by
    intro request member
    rw [← names]
    exact List.mem_map_of_mem member
  have replies : ∀ request ∈ requests, ∃ text,
      view roots stores pull.server request.1 = some text ∧ request.2 = utf8 text ∧
        Sound tables crypto roster request :=
    fun request member => sound_requests orderly member
  have plain : ∀ request ∈ requests, Plain request.1 := by
    intro request member
    obtain ⟨_, _, _, listable, _⟩ := replies request member
    exact listable.plain
  have ended : pull.result tables crypto roster roots stores =
      (serveAll (fetchOn tables crypto roster (roots pull.client) pull.disk) requests
        ((Query.list pull.order).opened (stores pull.client))).volume := by
    rw [Pull.result, pullOver_small completes.small]
  rw [ended]
  obtain ⟨pulled, after⟩ := @serveAll_sound tables Key crypto roster (roots pull.client) pull.disk
    requests ((Query.list pull.order).opened (stores pull.client))
    (fun request member => (replies request member).choose_spec.2.2)
    (fun request member => completes.carried _ (listed request member)) (orderly pull.client)
  refine ⟨after, fun addr => ?_⟩
  by_cases asked : addr ∈ wanted
  · obtain ⟨request, member, rfl⟩ := List.mem_map.mp (names.symm ▸ asked)
    obtain ⟨text, known, reply, _⟩ := replies request member
    have lacking : view roots stores pull.client request.1 = none :=
      ((mem_wanted_iff orderly).mp asked).2
    rw [lacking, Option.none_or, known, held_eq_some_iff]
    rw [← fromUtf8Lossy_utf8 text, ← reply]
    apply serveAll_stored plain (names.symm ▸ nodup_wantedFrom _)
      (orderly pull.client).reachable (fun _ _ => (orderly pull.client).flat _)
      (fun _ _ => List.not_mem_nil) request member ?_ (completes.carried _ asked)
    rw [pulled]
    exact List.mem_append_right _ (List.mem_map_of_mem member)
  · have kept : held (roots pull.client) (serveAll (fetchOn tables crypto roster
        (roots pull.client) pull.disk) requests
          ((Query.list pull.order).opened (stores pull.client))).volume addr =
        view roots stores pull.client addr := by
      rw [held, serveAll_keeps plain]
      · rfl
      · intro request member same
        exact asked (objectFile_injective same ▸ listed request member)
    rw [kept]
    cases own : view roots stores pull.client addr with
    | some text => rfl
    | none =>
        rw [Option.none_or]
        by_contra known
        exact asked ((mem_wanted_iff orderly).mpr ⟨fun none => known none.symm, own⟩)

variable [DecidableEq Node]

/-- A pull is an exchange of the maps, and it keeps the stores orderly. -/
theorem runPull_spec (orderly : AllOrderly tables crypto roster roots stores)
    (completes : Completes tables roots pull stores) :
    AllOrderly tables crypto roster roots (runPull tables crypto roster roots pull stores) ∧
      view roots (runPull tables crypto roster roots pull stores) =
        exchange pull.pair (view roots stores) := by
  obtain ⟨after, known⟩ := result_spec orderly completes
  constructor
  · intro node
    by_cases client : node = pull.client
    · rw [client, runPull, Function.update_self]
      exact after
    · rw [runPull, Function.update_of_ne client]
      exact orderly node
  · funext node addr
    rw [exchange_apply]
    by_cases client : node = pull.client
    · rw [if_pos (show node = pull.pair.1 from client), client, view, runPull, Function.update_self]
      exact known addr
    · rw [if_neg (show node ≠ pull.pair.1 from client), view, runPull, Function.update_of_ne client]
      rfl

/-- A run of pulls is a run of exchanges. -/
theorem runPulls_spec {pulls : List (Pull Node)}
    (orderly : AllOrderly tables crypto roster roots stores)
    (completed : GuardedRun (runPull tables crypto roster roots) (Completes tables roots) pulls
      stores) :
    AllOrderly tables crypto roster roots
        (serveAll (runPull tables crypto roster roots) pulls stores) ∧
      view roots (serveAll (runPull tables crypto roster roots) pulls stores) =
        serveAll exchange (pulls.map Pull.pair) (view roots stores) := by
  induction pulls generalizing stores with
  | nil => exact ⟨orderly, rfl⟩
  | cons pull rest inductionHypothesis =>
      obtain ⟨next, stepped⟩ := runPull_spec orderly completed.1
      rw [List.map_cons, serveAll, serveAll, ← stepped]
      exact inductionHypothesis next completed.2

/-- A pull that wants nothing leaves everything as it is. -/
theorem runPull_idle
    (small : SmallFrames tables (pull.peer roots stores) (roots pull.client) pull.order
      (stores pull.client))
    (idle : wantedFrom tables (pull.peer roots stores) (roots pull.client) pull.order
      (stores pull.client) = []) :
    runPull tables crypto roster roots pull stores = stores := by
  rw [runPull, Pull.result, pullOver_small small, idle]
  exact Function.update_eq_self pull.client stores

/-- So does a pull from a node with nothing new. -/
theorem runPull_settled (orderly : AllOrderly tables crypto roster roots stores)
    (completes : Completes tables roots pull stores)
    (nothing : ∀ addr, view roots stores pull.server addr ≠ none →
      view roots stores pull.client addr ≠ none) :
    runPull tables crypto roster roots pull stores = stores := by
  apply runPull_idle completes.small
  apply List.eq_nil_iff_forall_not_mem.mpr
  intro addr wanted
  obtain ⟨server, client⟩ := (mem_wanted_iff orderly).mp wanted
  exact nothing addr server client

end Runs

end KairosEngine.Swarm
