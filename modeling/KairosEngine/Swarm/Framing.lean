import KairosEngine.Library.LengthFrames
import KairosEngine.Swarm.Serve
import KairosEngine.Swarm.Sync

/-!
# A pull over the two byte streams

`wr` puts the length of a frame in front of it, `rd` refuses a length above its limit, and
the first refusal ends the exchange.  Behind the handshake the client asks and waits; the
server answers from the store it has at that moment.
-/

namespace KairosEngine.Swarm

open KairosEngine.Library KairosEngine.Daemon

/-! ## The exchange -/

/-- The limit of `rd`. -/
def frameLimit : Nat := 64 * 1024 * 1024

/-- What was written and is not read yet, and whether the server still reads. -/
structure Link where
  toServer : Bytes
  toClient : Bytes
  serving : Bool
  deriving DecidableEq

/-- The peer that is pulled from; its store may change between two requests. -/
structure Server where
  root : Path
  stores : Nat → Volume

/-- Why `rd` returns no frame: it refused one, the stream has ended, or nothing comes. -/
inductive Stop
  | refused
  | ended
  | stuck
  deriving DecidableEq

section Exchange

variable (tables : Unicode) (server : Server)

/-- The loop of `serve` until it waits for more; every turn takes a frame off the stream. -/
def serveLink (volume : Volume) : Nat → Link → Link
  | 0, link => link
  | fuel + 1, link =>
      if link.serving then
        match takeFrame frameLimit link.toServer with
        | .waiting => link
        | .refused => { link with serving := false }
        | .frame cmd rest =>
            match answer tables server.root volume cmd with
            | .frame reply =>
                serveLink volume fuel
                  { link with toServer := rest, toClient := link.toClient ++ lengthFrame reply }
            | .silent => serveLink volume fuel { link with toServer := rest }
            | .close => { link with toServer := rest, serving := false }
      else link

/-- `wr` of the command with this number, and the `rd` behind it. -/
def ask (number : Nat) (cmd : Bytes) (link : Link) : Except Stop Bytes × Link :=
  let sent := { link with toServer := link.toServer ++ lengthFrame cmd }
  let link := serveLink tables server (server.stores number) sent.toServer.length sent
  match takeFrame frameLimit link.toClient with
  | .frame reply rest => (.ok reply, { link with toClient := rest })
  | .refused => (.error .refused, link)
  | .waiting => (.error (if link.serving then .stuck else .ended), link)

variable {Key : Type} (crypto : Crypto Key) (roster : Roster Key) (root : Path)
variable (disk : Text → Bool)

/-- One address; a write that the disk refuses is not noticed. -/
def fetchOn (request : Text × Bytes) (state : Sync) : Sync :=
  let fetched := fetchOne tables crypto roster root request state
  if disk request.1 then fetched else { fetched with volume := state.volume }

/-- The loop over the wanted addresses; an error leaves it. -/
def pullLoop : Nat → List Text → Link → Sync → Except Stop Unit × Sync
  | _, [], _, state => (.ok (), state)
  | number, addr :: rest, link, state =>
      match ask tables server number (getCommand addr) link with
      | (.error stop, _) => (.error stop, { state with sent := state.sent ++ [getCommand addr] })
      | (.ok reply, link) =>
          pullLoop (number + 1) rest link
            (fetchOn tables crypto roster root disk (addr, reply) state)

/-- `pull_from` behind the handshake: `Ok` with the report, or an error. -/
def pullOver (order : HashOrder) (volume : Volume) : Except Stop Unit × Sync :=
  let query := Query.list order
  match ask tables server 0 query.frame ⟨[], [], true⟩ with
  | (.error stop, _) => (.error stop, query.opened volume)
  | (.ok reply, link) =>
      match pullLoop tables server crypto roster root disk 1
          (query.wanted tables root volume reply) link (query.opened volume) with
      | (.error stop, state) => (.error stop, state)
      | (.ok _, state) => (.ok (), { state with sent := state.sent ++ [utf8 "DONE".toList] })

/-- The addresses that are asked for. -/
def wantedFrom (order : HashOrder) (volume : Volume) : List Text :=
  (Query.list order).wanted tables root volume (utf8 (haveSet server.root (server.stores 0)))

/-- The addresses with what the server has under them when it is asked. -/
def requestsFrom : Nat → List Text → List (Text × Bytes)
  | _, [] => []
  | number, addr :: rest =>
      (addr, getReply server.root (server.stores number) addr) :: requestsFrom (number + 1) rest

/-- Every frame of the exchange is within the limit of the receiver. -/
structure SmallFrames (order : HashOrder) (volume : Volume) : Prop where
  list : (utf8 (haveSet server.root (server.stores 0))).length ≤ frameLimit
  get : ∀ addr ∈ wantedFrom tables server root order volume, (getCommand addr).length ≤ frameLimit
  object : ∀ request ∈ requestsFrom server 1 (wantedFrom tables server root order volume),
    request.2.length ≤ frameLimit

end Exchange

variable {tables : Unicode} {server : Server} {Key : Type} {crypto : Crypto Key}
variable {roster : Roster Key} {root : Path} {disk : Text → Bool} {order : HashOrder}

theorem frameLimit_lt : frameLimit < 2 ^ 32 := by decide

/-! ## One request -/

theorem requested_getCommand (addr : Text) : requested (getCommand addr) = some addr := by
  have drop : (getCommand addr).drop 4 = utf8 addr := List.drop_left' (by decide)
  have get : (utf8 "GET:".toList).isPrefixOf (getCommand addr) = true :=
    List.isPrefixOf_iff_prefix.mpr (List.prefix_append _ _)
  rw [requested, if_pos get, drop, fromUtf8Lossy_utf8]

theorem answer_getCommand (volume : Volume) (addr : Text) :
    answer tables root volume (getCommand addr) = .frame (getReply root volume addr) :=
  answer_get (requested_getCommand addr)

theorem answer_list (volume : Volume) :
    answer tables root volume (Query.list order).frame = .frame (utf8 (haveSet root volume)) :=
  if_pos rfl

/-- Between two requests nothing is under way. -/
theorem serveLink_quiet {volume : Volume} {cmd reply : Bytes}
    (small : cmd.length ≤ frameLimit)
    (answered : answer tables server.root volume cmd = .frame reply) :
    serveLink tables server volume (lengthFrame cmd).length ⟨lengthFrame cmd, [], true⟩ =
      ⟨[], lengthFrame reply, true⟩ := by
  have taken := @takeFrame_lengthFrame _ cmd [] (lt_of_le_of_lt small frameLimit_lt) small
  rw [List.append_nil] at taken
  have enough : (lengthFrame cmd).length = (cmd.length + 2) + 1 + 1 := by
    rw [lengthFrame, List.length_append, length_toLe]
    omega
  rw [enough, serveLink, if_pos rfl]
  simp only [taken, answered, List.nil_append]
  rw [serveLink, if_pos rfl]
  simp only [takeFrame_nil]

theorem ask_small {number : Nat} {cmd reply : Bytes} (small : cmd.length ≤ frameLimit)
    (answered : answer tables server.root (server.stores number) cmd = .frame reply)
    (within : reply.length ≤ frameLimit) :
    ask tables server number cmd ⟨[], [], true⟩ = (.ok reply, ⟨[], [], true⟩) := by
  have taken := @takeFrame_lengthFrame _ reply [] (lt_of_le_of_lt within frameLimit_lt) within
  rw [List.append_nil] at taken
  simp only [ask, List.nil_append, serveLink_quiet small answered, taken]

/-- A reply above the limit of the receiver is refused. -/
theorem ask_large {number : Nat} {cmd reply : Bytes} (small : cmd.length ≤ frameLimit)
    (answered : answer tables server.root (server.stores number) cmd = .frame reply)
    (fits : reply.length < 2 ^ 32) (large : frameLimit < reply.length) :
    (ask tables server number cmd ⟨[], [], true⟩).1 = .error .refused := by
  have refused := @takeFrame_refused _ reply [] fits large
  rw [List.append_nil] at refused
  simp only [ask, List.nil_append, serveLink_quiet small answered, refused]

/-- A command above the limit ends the server's loop, and nothing comes back. -/
theorem ask_oversized {number : Nat} {cmd : Bytes} (fits : cmd.length < 2 ^ 32)
    (large : frameLimit < cmd.length) :
    (ask tables server number cmd ⟨[], [], true⟩).1 = .error .ended := by
  have refused := @takeFrame_refused _ cmd [] fits large
  rw [List.append_nil] at refused
  have enough : (lengthFrame cmd).length = (cmd.length + 3) + 1 := by
    rw [lengthFrame, List.length_append, length_toLe]
    omega
  simp [ask, enough, serveLink, refused, takeFrame_nil]

/-! ## The loop -/

/-- With small frames the loop fetches every wanted address. -/
theorem pullLoop_small {number : Nat} {wanted : List Text} {state : Sync}
    (get : ∀ addr ∈ wanted, (getCommand addr).length ≤ frameLimit)
    (object : ∀ request ∈ requestsFrom server number wanted, request.2.length ≤ frameLimit) :
    pullLoop tables server crypto roster root disk number wanted ⟨[], [], true⟩ state =
      (.ok (), serveAll (fetchOn tables crypto roster root disk)
        (requestsFrom server number wanted) state) := by
  induction wanted generalizing number state with
  | nil => rfl
  | cons addr rest inductionHypothesis =>
      rw [List.forall_mem_cons] at get
      rw [requestsFrom, List.forall_mem_cons] at object
      rw [pullLoop, ask_small get.1 (answer_getCommand _ addr) object.1]
      simp only
      rw [inductionHypothesis get.2 object.2]
      rfl

/-- Every frame is shorter than its length field can say. -/
structure FittingFrames (tables : Unicode) (server : Server) (root : Path) (order : HashOrder)
    (volume : Volume) : Prop where
  list : (utf8 (haveSet server.root (server.stores 0))).length < 2 ^ 32
  get : ∀ addr ∈ wantedFrom tables server root order volume, (getCommand addr).length < 2 ^ 32
  object : ∀ request ∈ requestsFrom server 1 (wantedFrom tables server root order volume),
    request.2.length < 2 ^ 32

/-- The first frame that is too large leaves the loop with an error. -/
theorem pullLoop_ok_iff {number : Nat} {wanted : List Text} {state : Sync}
    (getFits : ∀ addr ∈ wanted, (getCommand addr).length < 2 ^ 32)
    (objectFits : ∀ request ∈ requestsFrom server number wanted, request.2.length < 2 ^ 32) :
    (pullLoop tables server crypto roster root disk number wanted ⟨[], [], true⟩ state).1 = .ok () ↔
      (∀ addr ∈ wanted, (getCommand addr).length ≤ frameLimit) ∧
        ∀ request ∈ requestsFrom server number wanted, request.2.length ≤ frameLimit := by
  induction wanted generalizing number state with
  | nil => simp [pullLoop, requestsFrom]
  | cons addr rest inductionHypothesis =>
      rw [List.forall_mem_cons] at getFits
      rw [requestsFrom, List.forall_mem_cons] at objectFits
      rw [List.forall_mem_cons, requestsFrom, List.forall_mem_cons, pullLoop]
      by_cases small : (getCommand addr).length ≤ frameLimit
      · by_cases within : (getReply server.root (server.stores number) addr).length ≤ frameLimit
        · rw [ask_small small (answer_getCommand _ addr) within]
          simp only
          rw [inductionHypothesis getFits.2 objectFits.2]
          simp only [small, within, true_and]
        · have refused := @ask_large tables server number _ _ small (answer_getCommand _ addr)
            objectFits.1 (not_le.mp within)
          cases asked : ask tables server number (getCommand addr) ⟨[], [], true⟩ with
          | mk reply link =>
              rw [asked] at refused
              subst refused
              simp [within]
      · have ended := @ask_oversized tables server number _ getFits.1 (not_le.mp small)
        cases asked : ask tables server number (getCommand addr) ⟨[], [], true⟩ with
        | mk reply link =>
            rw [asked] at ended
            subst ended
            simp [small]

theorem map_fst_requestsFrom (number : Nat) (wanted : List Text) :
    (requestsFrom server number wanted).map Prod.fst = wanted := by
  induction wanted generalizing number with
  | nil => rfl
  | cons addr rest inductionHypothesis =>
      rw [requestsFrom, List.map_cons, inductionHypothesis]

/-- What a pull with small frames leaves. -/
theorem pullOver_small {volume : Volume} (small : SmallFrames tables server root order volume) :
    pullOver tables server crypto roster root disk order volume =
      (.ok (),
        { serveAll (fetchOn tables crypto roster root disk)
            (requestsFrom server 1 (wantedFrom tables server root order volume))
            ((Query.list order).opened volume) with
          sent := (serveAll (fetchOn tables crypto roster root disk)
            (requestsFrom server 1 (wantedFrom tables server root order volume))
            ((Query.list order).opened volume)).sent ++ [utf8 "DONE".toList] }) := by
  have listed : (Query.list order).frame.length ≤ frameLimit := by
    rw [Query.frame]
    decide
  have fetched := @pullLoop_small tables server _ crypto roster root disk 1 _
    ((Query.list order).opened volume) small.get small.object
  rw [wantedFrom] at fetched
  unfold pullOver
  simp only
  rw [ask_small listed (answer_list _) small.list]
  simp only
  rw [fetched]
  rfl

/-- Among frames that fit their length field, the limit alone decides whether a pull returns
`Ok`. -/
theorem pullOver_ok_iff {volume : Volume} (fits : FittingFrames tables server root order volume) :
    (pullOver tables server crypto roster root disk order volume).1 = .ok () ↔
      SmallFrames tables server root order volume := by
  constructor
  · intro ok
    have listed : (Query.list order).frame.length ≤ frameLimit := by
      rw [Query.frame]
      decide
    unfold pullOver at ok
    simp only at ok
    by_cases within : (utf8 (haveSet server.root (server.stores 0))).length ≤ frameLimit
    · rw [ask_small listed (answer_list _) within] at ok
      have decides := @pullLoop_ok_iff tables server _ crypto roster root disk 1 _
        ((Query.list order).opened volume) fits.get fits.object
      rw [wantedFrom] at decides
      simp only at ok
      split at ok
      next => cases ok
      next done =>
        rw [done] at decides
        obtain ⟨get, object⟩ := decides.mp rfl
        exact ⟨within, get, object⟩
    · have refused := @ask_large tables server 0 _ _ listed (answer_list _) fits.list
        (not_le.mp within)
      cases asked : ask tables server 0 (Query.list order).frame ⟨[], [], true⟩ with
      | mk reply link =>
          rw [asked] at refused ok
          subst refused
          cases ok
  · intro small
    rw [pullOver_small small]

/-! ## The report -/

/-- A fetch reports its address once. -/
theorem fetchOn_reports (request : Text × Bytes) (state : Sync) :
    ((fetchOn tables crypto roster root disk request state).pulled ++
        (fetchOn tables crypto roster root disk request state).rejected.map Prod.fst).Perm
      (request.1 :: (state.pulled ++ state.rejected.map Prod.fst)) := by
  have reports : ((fetchOne tables crypto roster root request state).pulled ++
      (fetchOne tables crypto roster root request state).rejected.map Prod.fst).Perm
        (request.1 :: (state.pulled ++ state.rejected.map Prod.fst)) := by
    unfold fetchOne
    simp only
    split
    next =>
      rw [List.map_append, ← List.append_assoc]
      exact List.perm_append_singleton _ _
    next =>
      split
      next =>
        simp only [List.append_assoc]
        exact List.perm_middle
      next =>
        rw [List.map_append, ← List.append_assoc]
        exact List.perm_append_singleton _ _
  unfold fetchOn
  simp only
  split
  next => exact reports
  next => exact reports

theorem serveAll_reports (requests : List (Text × Bytes)) (state : Sync) :
    ((serveAll (fetchOn tables crypto roster root disk) requests state).pulled ++
        (serveAll (fetchOn tables crypto roster root disk) requests state).rejected.map
          Prod.fst).Perm
      (requests.map Prod.fst ++ (state.pulled ++ state.rejected.map Prod.fst)) := by
  induction requests generalizing state with
  | nil => exact List.Perm.refl _
  | cons request rest inductionHypothesis =>
      refine (inductionHypothesis _).trans ?_
      refine ((fetchOn_reports request state).append_left _).trans ?_
      rw [List.map_cons, List.cons_append]
      exact List.perm_middle

theorem mem_wantedFrom {volume : Volume} {addr : Text} :
    addr ∈ wantedFrom tables server root order volume ↔
      addr ∈ textLines (haveSet server.root (server.stores 0)) ∧ addr ≠ [] ∧
        addr ∉ haveAddrs root volume := by
  simp only [wantedFrom, Query.wanted, fromUtf8Lossy_utf8, List.mem_filter, decide_eq_true_eq,
    (order.perm _).mem_iff, List.mem_dedup, and_assoc]

theorem nodup_wantedFrom (volume : Volume) :
    (wantedFrom tables server root order volume).Nodup := by
  apply List.Nodup.filter
  exact (order.perm _).nodup_iff.mpr (List.nodup_dedup _)

/-! ## The stored objects -/

/-- The file of an object. -/
def objectFile (root : Path) (addr : Text) : Path := fullDir root ++ [utf8 (addr ++ ".md".toList)]

/-- A file name: neither a slash nor a NUL is in it. -/
def Plain (addr : Text) : Prop := '/' ∉ addr ∧ '\x00' ∉ addr

/-- No file stands where `full/` or a directory above it should be. -/
def Reachable (root : Path) (volume : Volume) : Prop :=
  ∀ place, place <+: fullDir root → volume.fileAt place = none

theorem objectPath_plain {addr : Text} (plain : '/' ∉ addr) :
    objectPath root addr = objectFile root addr := by
  rw [objectPath, objectHops_plain plain, target_down, List.nil_append, objectName,
    leaf_plain plain, objectFile]

theorem objectFile_injective {first second : Text}
    (same : objectFile root first = objectFile root second) : first = second := by
  have names := (List.append_inj' same rfl).2
  exact List.append_cancel_right (utf8_injective (List.singleton_inj.mp names))

theorem entry_off (name : Bytes) : ¬ fullDir root ++ [name] <+: fullDir root := by
  intro prefixed
  have longer := prefixed.length_le
  rw [List.length_append, List.length_singleton] at longer
  omega

theorem isDir_entry_made (volume : Volume) (name : Bytes) :
    (volume.makeDirs [] (fullDir root)).isDir (fullDir root ++ [name]) =
      volume.isDir (fullDir root ++ [name]) := by
  have same := @Tree.entryAt_makeDirs_off _ _ _ volume [] (fullDir root) _ (entry_off name)
  rw [Tree.isDir, Tree.isDir, same]

theorem storeObject_stores {volume : Volume} {addr : Text} (text : Text) (plain : Plain addr)
    (reachable : Reachable root volume) (free : volume.isDir (objectFile root addr) = false) :
    (storeObject root volume addr text).fileAt (objectFile root addr) = some (utf8 text) := by
  have reached : (volume.makeDirs [] (fullDir root)).follow [] (objectHops root addr) =
      some (target [] (objectHops root addr)) := by
    rw [objectHops_plain plain.1]
    apply Tree.follow_eq_some_iff.mpr
    refine ⟨fun place visited => ?_, rfl⟩
    apply @Tree.isDir_makeDirs _ _ _ volume [] (fullDir root) ?_ reachable place
      (mem_visits_down.mp visited)
    intro above prefixed
    rw [List.prefix_nil.mp prefixed]
    rfl
  have place : target [] (objectHops root addr) ++ [objectName addr] = objectFile root addr :=
    objectPath_plain plain.1
  rw [storeObject, if_neg plain.2, ← place]
  apply Tree.fileAt_write_self (utf8 text) reached
  rw [place, objectFile, isDir_entry_made]
  exact free

theorem storeObject_keeps {volume : Volume} {addr : Text} (text : Text) (plain : Plain addr)
    {path : Path} (away : path ≠ objectFile root addr) :
    (storeObject root volume addr text).fileAt path = volume.fileAt path := by
  apply storeObject_elsewhere
  intro _
  rwa [objectPath_plain plain.1]

theorem storeObject_flat {volume : Volume} {addr : Text} (text : Text) {name : Bytes}
    (free : volume.isDir (fullDir root ++ [name]) = false) :
    (storeObject root volume addr text).isDir (fullDir root ++ [name]) = false := by
  rw [Bool.eq_false_iff] at free ⊢
  intro directory
  apply free
  unfold storeObject at directory
  split at directory
  next => rwa [isDir_entry_made] at directory
  next =>
    have before := Tree.isDir_of_isDir_write directory
    rwa [isDir_entry_made] at before

theorem storeObject_reachable {volume : Volume} {addr : Text} (text : Text) (plain : Plain addr)
    (reachable : Reachable root volume) :
    Reachable root (storeObject root volume addr text) := by
  intro place prefixed
  rw [storeObject_keeps text plain]
  · exact reachable place prefixed
  · rintro rfl
    exact entry_off _ prefixed

/-- A fetch stores nothing, or it reports its object as pulled and writes it, if the disk does. -/
theorem fetchOn_cases (request : Text × Bytes) (state : Sync) :
    let next := fetchOn tables crypto roster root disk request state
    next.volume = state.volume ∧ next.pulled = state.pulled ∨
      next.pulled = state.pulled ++ [request.1] ∧
        next.volume = if disk request.1 then
          storeObject root state.volume request.1 (fromUtf8Lossy request.2) else state.volume := by
  have fetched : (fetchOne tables crypto roster root request state).volume = state.volume ∧
      (fetchOne tables crypto roster root request state).pulled = state.pulled ∨
        (fetchOne tables crypto roster root request state).pulled = state.pulled ++ [request.1] ∧
          (fetchOne tables crypto roster root request state).volume =
            storeObject root state.volume request.1 (fromUtf8Lossy request.2) := by
    unfold fetchOne
    simp only
    split
    next => exact Or.inl ⟨rfl, rfl⟩
    next =>
      split
      next => exact Or.inr ⟨rfl, rfl⟩
      next => exact Or.inl ⟨rfl, rfl⟩
  unfold fetchOn
  simp only
  split
  next => exact fetched
  next =>
    rcases fetched with ⟨_, same⟩ | ⟨pulled, _⟩
    · exact Or.inl ⟨rfl, same⟩
    · exact Or.inr ⟨pulled, rfl⟩

theorem fetchOn_keeps {request : Text × Bytes} {state : Sync} (plain : Plain request.1)
    {path : Path} (away : path ≠ objectFile root request.1) :
    (fetchOn tables crypto roster root disk request state).volume.fileAt path =
      state.volume.fileAt path := by
  rcases @fetchOn_cases tables _ crypto roster root disk request state with
    ⟨same, _⟩ | ⟨_, written⟩
  · rw [same]
  · rw [written]
    split
    next => exact storeObject_keeps _ plain away
    next => rfl

theorem fetchOn_free {request : Text × Bytes} {state : Sync} {other : Text}
    (free : state.volume.isDir (objectFile root other) = false) :
    (fetchOn tables crypto roster root disk request state).volume.isDir
      (objectFile root other) = false := by
  rcases @fetchOn_cases tables _ crypto roster root disk request state with
    ⟨same, _⟩ | ⟨_, written⟩
  · rwa [same]
  · rw [written]
    split
    next => exact storeObject_flat _ free
    next => exact free

theorem fetchOn_reachable {request : Text × Bytes} {state : Sync} (plain : Plain request.1)
    (reachable : Reachable root state.volume) :
    Reachable root (fetchOn tables crypto roster root disk request state).volume := by
  rcases @fetchOn_cases tables _ crypto roster root disk request state with
    ⟨same, _⟩ | ⟨_, written⟩
  · rwa [same]
  · rw [written]
    split
    next => exact storeObject_reachable _ plain reachable
    next => exact reachable

theorem serveAll_keeps {requests : List (Text × Bytes)} {state : Sync}
    (plain : ∀ request ∈ requests, Plain request.1) {path : Path}
    (away : ∀ request ∈ requests, path ≠ objectFile root request.1) :
    (serveAll (fetchOn tables crypto roster root disk) requests state).volume.fileAt path =
      state.volume.fileAt path := by
  induction requests generalizing state with
  | nil => rfl
  | cons request rest inductionHypothesis =>
      rw [List.forall_mem_cons] at plain away
      rw [serveAll, inductionHypothesis plain.2 away.2, fetchOn_keeps plain.1 away.1]

theorem mem_serveAll_pulled {requests : List (Text × Bytes)} {state : Sync} {addr : Text}
    (pulled : addr ∈ (serveAll (fetchOn tables crypto roster root disk) requests state).pulled) :
    addr ∈ state.pulled ∨ addr ∈ requests.map Prod.fst := by
  induction requests generalizing state with
  | nil => exact Or.inl pulled
  | cons request rest inductionHypothesis =>
      rw [List.map_cons, List.mem_cons]
      rcases inductionHypothesis pulled with before | later
      · rcases @fetchOn_cases tables _ crypto roster root disk request state with
          ⟨_, same⟩ | ⟨grown, _⟩
        · exact Or.inl (same ▸ before)
        · rw [grown, List.mem_append, List.mem_singleton] at before
          rcases before with old | new
          · exact Or.inl old
          · exact Or.inr (Or.inl new)
      · exact Or.inr (Or.inr later)

/-- Every object that is reported as pulled and that the disk takes is in its file at the end. -/
theorem serveAll_stored {requests : List (Text × Bytes)} {state : Sync}
    (plain : ∀ request ∈ requests, Plain request.1) (distinct : (requests.map Prod.fst).Nodup)
    (reachable : Reachable root state.volume)
    (free : ∀ request ∈ requests, state.volume.isDir (objectFile root request.1) = false)
    (fresh : ∀ request ∈ requests, request.1 ∉ state.pulled) :
    ∀ request ∈ requests,
      request.1 ∈ (serveAll (fetchOn tables crypto roster root disk) requests state).pulled →
        disk request.1 = true →
          (serveAll (fetchOn tables crypto roster root disk) requests state).volume.fileAt
            (objectFile root request.1) = some (utf8 (fromUtf8Lossy request.2)) := by
  induction requests generalizing state with
  | nil => exact fun request none => absurd none List.not_mem_nil
  | cons head rest inductionHypothesis =>
      rw [List.forall_mem_cons] at plain free fresh
      rw [List.map_cons, List.nodup_cons] at distinct
      have cases := @fetchOn_cases tables _ crypto roster root disk head state
      have later : ∀ request ∈ rest, head.1 ≠ request.1 := by
        intro request member same
        exact distinct.1 (same ▸ List.mem_map_of_mem member)
      intro request member pulled carried
      rw [serveAll] at pulled ⊢
      rcases List.mem_cons.mp member with rfl | behind
      · rw [serveAll_keeps plain.2]
        · rcases mem_serveAll_pulled pulled with now | after
          · rcases cases with ⟨_, same⟩ | ⟨_, written⟩
            · exact absurd (same ▸ now) fresh.1
            · rw [written, if_pos carried]
              exact storeObject_stores _ plain.1 reachable free.1
          · exact absurd after distinct.1
        · exact fun other listed same => later other listed (objectFile_injective same)
      · apply inductionHypothesis plain.2 distinct.2 (fetchOn_reachable plain.1 reachable)
          (fun other listed => fetchOn_free (free.2 other listed)) ?_ request behind pulled carried
        intro other listed before
        rcases cases with ⟨_, same⟩ | ⟨grown, _⟩
        · exact fresh.2 other listed (same ▸ before)
        · rw [grown, List.mem_append, List.mem_singleton] at before
          rcases before with old | new
          · exact fresh.2 other listed old
          · exact later other listed new.symm

/-! ## Addresses of a list -/

theorem mem_of_mem_splitOn {text piece : Text} (member : piece ∈ text.splitOn '\n') :
    ∀ c ∈ piece, c ∈ text := by
  induction text generalizing piece with
  | nil =>
      rw [List.splitOn_nil, List.mem_singleton] at member
      rw [member]
      exact fun c none => none
  | cons head rest inductionHypothesis =>
      rw [List.splitOn_cons_eq_if_modifyHead] at member
      intro c inside
      split at member
      next =>
        rcases List.mem_cons.mp member with rfl | later
        · cases inside
        · exact List.mem_cons_of_mem head (inductionHypothesis later c inside)
      next =>
        obtain ⟨first, others, pieces⟩ := List.exists_cons_of_ne_nil
          (List.splitOn_ne_nil '\n' rest)
        rw [pieces, List.modifyHead_cons] at member
        rw [pieces] at inductionHypothesis
        rcases List.mem_cons.mp member with rfl | later
        · rcases List.mem_cons.mp inside with rfl | inside
          · exact List.mem_cons_self
          · exact List.mem_cons_of_mem head (inductionHypothesis List.mem_cons_self c inside)
        · exact List.mem_cons_of_mem head
            (inductionHypothesis (List.mem_cons_of_mem first later) c inside)

/-- A line takes its characters from the text. -/
theorem mem_of_mem_textLines {text line : Text} (member : line ∈ textLines text) :
    ∀ c ∈ line, c ∈ text := by
  have ended : ∀ {line}, line ∈ ((text.splitOn '\n').dropLast.map fun line =>
      if line.getLast? = some '\r' then line.dropLast else line) → ∀ c ∈ line, c ∈ text := by
    intro line listed c inside
    obtain ⟨piece, found, rfl⟩ := List.mem_map.mp listed
    apply mem_of_mem_splitOn (List.mem_of_mem_dropLast found)
    split at inside
    next => exact List.mem_of_mem_dropLast inside
    next => exact inside
  unfold textLines at member
  split at member
  next => cases member
  next =>
    simp only at member
    split at member
    next => exact ended member
    next last _ found =>
      rcases List.mem_append.mp member with before | here
      · exact ended before
      · rw [List.mem_singleton.mp here]
        exact mem_of_mem_splitOn (List.mem_of_getLast? found)
    next => exact ended member

/-- The lines of a joined list of lines. -/
theorem textLines_intercalate {lines : List Text}
    (proper : ∀ line ∈ lines, line ≠ [] ∧ '\n' ∉ line ∧ '\r' ∉ line) :
    textLines (['\n'].intercalate lines) = lines := by
  cases lines with
  | nil => rfl
  | cons first rest =>
      have pieces : (['\n'].intercalate (first :: rest)).splitOn '\n' = first :: rest :=
        List.splitOn_intercalate '\n' (fun line member => (proper line member).2.1)
          (List.cons_ne_nil first rest)
      have kept : ((first :: rest).dropLast.map fun line =>
          if line.getLast? = some '\r' then line.dropLast else line) = (first :: rest).dropLast := by
        rw [List.map_congr_left (g := id) fun line member => ?_, List.map_id]
        rw [if_neg]
        · rfl
        · intro last
          exact (proper line (List.mem_of_mem_dropLast member)).2.2 (List.mem_of_getLast? last)
      unfold textLines
      split
      next empty =>
        rw [empty] at pieces
        rw [List.splitOn_nil, List.cons.injEq] at pieces
        exact absurd pieces.1.symm (proper first List.mem_cons_self).1
      next =>
        simp only [pieces, kept]
        obtain ⟨before, last, whole⟩ := List.eq_nil_or_concat' (first :: rest) |>.resolve_left
          (List.cons_ne_nil first rest)
        have proper := proper last (by rw [whole]; exact List.mem_append_right _ (List.mem_singleton_self last))
        rw [whole, List.getLast?_concat, List.dropLast_concat]
        split
        next found => exact absurd (Option.some.inj found) proper.1
        next found => rw [Option.some.inj found]
        next found => cases found

theorem mem_intercalate {c : Char} {texts : List Text} (member : c ∈ ['\n'].intercalate texts) :
    c = '\n' ∨ ∃ text ∈ texts, c ∈ text := by
  induction texts with
  | nil => cases member
  | cons text rest inductionHypothesis =>
      cases rest with
      | nil =>
          rw [List.intercalate_singleton] at member
          exact Or.inr ⟨text, List.mem_cons_self, member⟩
      | cons next rest =>
          rw [List.intercalate_cons_cons, List.append_assoc, List.mem_append] at member
          rcases member with here | later
          · exact Or.inr ⟨text, List.mem_cons_self, here⟩
          · rcases List.mem_append.mp later with separator | later
            · exact Or.inl (List.mem_singleton.mp separator)
            · rcases inductionHypothesis later with separator | ⟨found, listed, inside⟩
              · exact Or.inl separator
              · exact Or.inr ⟨found, List.mem_cons_of_mem text listed, inside⟩

/-- The characters of an address on the list, line ends apart, are those of a file name. -/
theorem plain_of_listed {volume : Volume} {addr : Text}
    (names : ∀ name ∈ listing root volume, (0x2F : UInt8) ∉ name ∧ (0x00 : UInt8) ∉ name)
    (listed : addr ∈ textLines (haveSet root volume)) : Plain addr := by
  have absent : ∀ c : Char, c.toNat < 0x80 → c ≠ '\n' →
      (∀ name ∈ listing root volume, UInt8.ofNat c.toNat ∉ name) → c ∉ addr := by
    intro c ascii other none inside
    rcases mem_intercalate (mem_of_mem_textLines listed c inside) with newline | ⟨held, member, inside⟩
    · exact other newline
    · rw [stableSort_perm.mem_iff, haveAddrs, List.mem_dedup, List.mem_filterMap] at member
      obtain ⟨name, found, named⟩ := member
      apply none name found
      apply mem_of_mem_fromUtf8Lossy ?_ ascii
      unfold objectAddr stripSuffix stripPrefix at named
      split at named
      next =>
        cases named
        rw [List.mem_reverse] at inside
        exact List.mem_reverse.mp (List.mem_of_mem_drop inside)
      next => cases named
  exact ⟨absent '/' (by decide) (by decide) fun name found => (names name found).1,
    absent '\x00' (by decide) (by decide) fun name found => (names name found).2⟩

end KairosEngine.Swarm
