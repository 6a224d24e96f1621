import KairosEngine.Library.Loop
import KairosEngine.Swarm.Store

/-!
# Fetching from a peer

`pull_from` and `discover_similar` behind the handshake.  The peer chooses the addresses and the
objects; an object is checked against its address before it is written under it.
-/

namespace KairosEngine.Swarm

open KairosEngine.Library KairosEngine.Daemon

/-- The order in which a set is gone through. -/
structure HashOrder where
  visit : List Text → List Text
  perm : ∀ addrs, (visit addrs).Perm addrs

structure Sync where
  volume : Volume
  sent : List Bytes
  pulled : List Text
  rejected : List (Text × String)
  deriving DecidableEq

/-- `create_dir_all` of `full/` and the write of an object; their errors are dropped. -/
def storeObject (root : Path) (volume : Volume) (addr text : Text) : Volume :=
  let made := volume.makeDirs [] (fullDir root)
  if '\x00' ∈ addr then made else made.write (objectHops root addr) (objectName addr) (utf8 text)

def getCommand (addr : Text) : Bytes := utf8 "GET:".toList ++ utf8 addr

section Fetching

variable (tables : Unicode) {Key : Type} (crypto : Crypto Key) (roster : Roster Key) (root : Path)

/-- The body of both loops: one address and the reply to its `GET`. -/
def fetchOne (request : Text × Bytes) (state : Sync) : Sync :=
  let (addr, reply) := request
  let asked := { state with sent := state.sent ++ [getCommand addr] }
  if reply = utf8 "MISS".toList then
    { asked with rejected := state.rejected ++ [(addr, Reject.missing.asStr)] }
  else
    let text := fromUtf8Lossy reply
    match accept tables crypto addr text (some roster) with
    | .ok _ =>
        { asked with
          volume := storeObject root state.volume addr text
          pulled := state.pulled ++ [addr] }
    | .error reason => { asked with rejected := state.rejected ++ [(addr, reason.asStr)] }

/-- What a peer is asked first. -/
inductive Query
  | list (order : HashOrder)
  | similar (query : Sig) (k : Nat)

def Query.frame : Query → Bytes
  | .list _ => utf8 "LIST".toList
  | .similar query k =>
      utf8 ("SIM:".toList ++ sigToHex query ++ ':' :: Nat.toDigits 10 (max k 1))

/-- The addresses that the first reply names and that the store does not have. -/
def Query.wanted (volume : Volume) (reply : Bytes) : Query → List Text
  | .list order =>
      (order.visit ((textLines (fromUtf8Lossy reply)).filter (· ≠ [])).dedup).filter
        fun addr => decide (addr ∉ haveAddrs root volume)
  | .similar _ _ =>
      (((textLines (fromUtf8Lossy reply)).filter (· ≠ [])).filterMap
        fun line => (words tables.isWhitespace line).head?).filter
          fun addr => decide (addr ∉ haveAddrs root volume)

def Query.opened (query : Query) (volume : Volume) : Sync where
  volume
  sent := [query.frame]
  pulled := []
  rejected := []

/-- Everything behind the handshake, with the frames that the peer sends before the stream ends.
Without a report the connection was lost. -/
def sync (query : Query) (replies : List Bytes) (volume : Volume) : Sync × Bool :=
  match replies with
  | [] => (query.opened volume, false)
  | reply :: rest =>
      let wanted := query.wanted tables root volume reply
      let fetched := serveAll (fetchOne tables crypto roster root) (wanted.zip rest)
        (query.opened volume)
      match wanted[rest.length]? with
      | some addr => ({ fetched with sent := fetched.sent ++ [getCommand addr] }, false)
      | none => ({ fetched with sent := fetched.sent ++ [utf8 "DONE".toList] }, true)

def pullFrom (order : HashOrder) : List Bytes → Volume → Sync × Bool :=
  sync tables crypto roster root (.list order)

def discoverSimilar (query : Sig) (k : Nat) : List Bytes → Volume → Sync × Bool :=
  sync tables crypto roster root (.similar query k)

/-! ## What a store promises -/

/-- Every file `full/<a>.md` is accepted under `a`. -/
def Authentic (volume : Volume) : Prop :=
  ∀ addr content,
    volume.fileAt (fullDir root ++ [utf8 (addr ++ ".md".toList)]) = some content →
      ∃ text, content = utf8 text ∧ Accepted tables crypto roster addr text

def SameOutside (before after : Volume) : Prop :=
  ∀ path, ¬ fullDir root <+: path → after.fileAt path = before.fileAt path

/-- The address leads to a directory. -/
def Leads (volume : Volume) (addr : Text) : Prop :=
  '\x00' ∉ addr ∧
    ((volume.makeDirs [] (fullDir root)).follow [] (objectHops root addr)).isSome = true

/-- An accepted object whose address leads anywhere leads into `full/`, and directly there it is
accepted under the name of the file too. -/
def Lands (request : Text × Bytes) (state : Sync) : Prop :=
  request.2 ≠ utf8 "MISS".toList →
    Accepted tables crypto roster request.1 (fromUtf8Lossy request.2) →
      Leads root state.volume request.1 →
        fullDir root <+: target [] (objectHops root request.1) ∧
          (target [] (objectHops root request.1) = fullDir root →
            Accepted tables crypto roster (leaf request.1) (fromUtf8Lossy request.2))

/-- Every request of an exchange lands. -/
def Landing (query : Query) (replies : List Bytes) (volume : Volume) : Prop :=
  ∀ reply rest, replies = reply :: rest →
    GuardedRun (fetchOne tables crypto roster root) (Lands tables crypto roster root)
      ((query.wanted tables root volume reply).zip rest) (query.opened volume)

end Fetching

variable {tables : Unicode} {Key : Type} {crypto : Crypto Key} {roster : Roster Key} {root : Path}

theorem lands_plain {request : Text × Bytes} (plain : '/' ∉ request.1) (state : Sync) :
    Lands tables crypto roster root request state := by
  intro _ accepted _
  rw [objectHops_plain plain, target_down, List.nil_append, leaf_plain plain]
  exact ⟨List.prefix_refl _, fun _ => accepted⟩

/-! ## One object -/

theorem storeObject_fileAt {volume : Volume} {addr text : Text} {path : Path} {found : Bytes}
    (stored : (storeObject root volume addr text).fileAt path = some found) :
    volume.fileAt path = some found ∨
      Leads root volume addr ∧ path = objectPath root addr ∧ found = utf8 text := by
  unfold storeObject at stored
  split at stored
  next =>
    rw [Tree.fileAt_makeDirs] at stored
    exact .inl stored
  next null =>
    rcases Tree.fileAt_write stored with before | ⟨reached, path, written⟩
    · rw [Tree.fileAt_makeDirs] at before
      exact .inl before
    · exact .inr ⟨⟨null, by rw [reached, Option.isSome_some]⟩, path, written⟩

theorem storeObject_elsewhere {volume : Volume} {addr : Text} (text : Text) {path : Path}
    (away : Leads root volume addr → path ≠ objectPath root addr) :
    (storeObject root volume addr text).fileAt path = volume.fileAt path := by
  unfold storeObject
  split
  next => exact Tree.fileAt_makeDirs _ _ _
  next null =>
    rw [Tree.fileAt_write_of_ne (utf8 text), Tree.fileAt_makeDirs]
    intro reached
    exact away ⟨null, by rw [reached, Option.isSome_some]⟩

/-- What a fetch does to the volume. -/
theorem fetchOne_volume (request : Text × Bytes) (state : Sync) :
    (fetchOne tables crypto roster root request state).volume = state.volume ∨
      request.2 ≠ utf8 "MISS".toList ∧
        Accepted tables crypto roster request.1 (fromUtf8Lossy request.2) ∧
        (fetchOne tables crypto roster root request state).volume =
          storeObject root state.volume request.1 (fromUtf8Lossy request.2) := by
  unfold fetchOne
  simp only
  split
  next => exact .inl rfl
  next present =>
    split
    next cls accepted => exact .inr ⟨present, ⟨cls, accepted⟩, rfl⟩
    next => exact .inl rfl

theorem fetchOne_authentic {request : Text × Bytes} {state : Sync}
    (lands : Lands tables crypto roster root request state)
    (authentic : Authentic tables crypto roster root state.volume) :
    Authentic tables crypto roster root
      (fetchOne tables crypto roster root request state).volume := by
  rcases fetchOne_volume request state with same | ⟨present, accepted, written⟩
  · rw [same]
    exact authentic
  · intro addr content stored
    rw [written] at stored
    rcases storeObject_fileAt stored with before | ⟨leads, path, rfl⟩
    · exact authentic addr content before
    · refine ⟨fromUtf8Lossy request.2, rfl, ?_⟩
      obtain ⟨dir, name⟩ := List.append_inj' path rfl
      have own := (lands present accepted leads).2 dir.symm
      have named := utf8_injective (List.singleton_inj.mp name)
      rw [List.append_cancel_right named]
      exact own

theorem fetchOne_outside {request : Text × Bytes} {state : Sync}
    (lands : Lands tables crypto roster root request state) :
    SameOutside root state.volume (fetchOne tables crypto roster root request state).volume := by
  intro path outside
  rcases fetchOne_volume request state with same | ⟨present, accepted, written⟩
  · rw [same]
  · rw [written]
    apply storeObject_elsewhere
    rintro leads rfl
    exact outside ((lands present accepted leads).1.trans (List.prefix_append _ _))

/-! ## A whole exchange -/

theorem sync_volume (query : Query) (reply : Bytes) (rest : List Bytes) (volume : Volume) :
    (sync tables crypto roster root query (reply :: rest) volume).1.volume =
      (serveAll (fetchOne tables crypto roster root)
        ((query.wanted tables root volume reply).zip rest) (query.opened volume)).volume := by
  unfold sync
  simp only
  split
  next => rfl
  next => rfl

/-- Where every accepted object lands, a store stays authentic and nothing beside `full/` is
touched, whatever the peer sends and wherever it stops. -/
theorem sync_keeps_store (query : Query) {replies : List Bytes} {volume : Volume}
    (landing : Landing tables crypto roster root query replies volume)
    (authentic : Authentic tables crypto roster root volume) :
    Authentic tables crypto roster root
        (sync tables crypto roster root query replies volume).1.volume ∧
      SameOutside root volume (sync tables crypto roster root query replies volume).1.volume := by
  cases replies with
  | nil => exact ⟨authentic, fun _ _ => rfl⟩
  | cons reply rest =>
      rw [sync_volume]
      have run := landing reply rest rfl
      let kept : Sync → Prop := fun state =>
        Authentic tables crypto roster root state.volume ∧ SameOutside root volume state.volume
      apply @GuardedRun.preserves _ _ _ _ kept ?_ _ _ run
      · exact ⟨authentic, fun _ _ => rfl⟩
      · rintro request state lands ⟨before, outside⟩
        refine ⟨fetchOne_authentic lands before, fun path away => ?_⟩
        rw [fetchOne_outside lands path away, outside path away]

/-! ## Two exchanges -/

/-- A store with nothing in it. -/
def emptyStore : Volume where
  entries :=
    [([utf8 "okf".toList], .directory),
      ([utf8 "okf".toList, utf8 "full".toList], .directory),
      ([utf8 "okf".toList, utf8 "sum".toList], .directory)]

def insertionOrder : HashOrder := ⟨id, fun _ => List.Perm.refl _⟩

theorem length_zeros : (List.replicate 32 (0 : UInt8)).length = 32 := List.length_replicate

/-- A digest of zeros and a scheme whose signatures are zeros. -/
def zeroCrypto : Crypto Unit where
  sha256 _ := ⟨List.replicate 32 0, length_zeros⟩
  verify _ _ sig := decide (sig.bytes = List.replicate 64 0)

def onlyPeer : Roster Unit := fun id => if id = "p".toList then some () else none

/-- An episode that the peer signed under the given address. -/
def episodeText (addr : Text) : Text :=
  "---\nmem_addr: ".toList ++ addr ++ "\nmem_kind: episode\nmem_signer: p\nmem_sig: ".toList ++
    List.replicate 128 '0' ++ "\n---\n".toList

theorem emptyStore_fileAt (path : Path) : emptyStore.fileAt path = none := by
  cases stored : emptyStore.fileAt path with
  | none => rfl
  | some content =>
      have listed := Tree.mem_of_fileAt stored
      simp [emptyStore] at listed

theorem emptyStore_authentic :
    Authentic Unicode.ascii zeroCrypto onlyPeer [utf8 "okf".toList] emptyStore := by
  intro addr content stored
  rw [emptyStore_fileAt] at stored
  cases stored

theorem pullFrom_keeps_emptyStore :
    Authentic Unicode.ascii zeroCrypto onlyPeer [utf8 "okf".toList]
        (pullFrom Unicode.ascii zeroCrypto onlyPeer [utf8 "okf".toList] insertionOrder
          [utf8 "x".toList, utf8 (episodeText "x".toList)] emptyStore).1.volume ∧
      SameOutside [utf8 "okf".toList] emptyStore
        (pullFrom Unicode.ascii zeroCrypto onlyPeer [utf8 "okf".toList] insertionOrder
          [utf8 "x".toList, utf8 (episodeText "x".toList)] emptyStore).1.volume := by
  apply sync_keeps_store
  · rintro reply rest same
    cases same
    have wanted : (Query.list insertionOrder).wanted Unicode.ascii [utf8 "okf".toList] emptyStore
        (utf8 "x".toList) = ["x".toList] := rfl
    rw [wanted]
    exact ⟨lands_plain (by decide) _, trivial⟩
  · exact emptyStore_authentic

/-- A pull of one accepted episode into the empty store. -/
theorem pullFrom_episode {addr : Text}
    (wanted : (Query.list insertionOrder).wanted Unicode.ascii [utf8 "okf".toList] emptyStore
      (utf8 addr) = [addr])
    (accepted : accept Unicode.ascii zeroCrypto addr (episodeText addr) (some onlyPeer) = .ok .c2) :
    (pullFrom Unicode.ascii zeroCrypto onlyPeer [utf8 "okf".toList] insertionOrder
      [utf8 addr, utf8 (episodeText addr)] emptyStore).1.volume =
        storeObject [utf8 "okf".toList] emptyStore addr (episodeText addr) := by
  have present : utf8 (episodeText addr) ≠ utf8 "MISS".toList := by
    intro same
    cases utf8_injective same
  rw [pullFrom, sync_volume, wanted]
  simp only [List.zip_cons_cons, List.zip_nil_right, serveAll, fetchOne, if_neg present,
    fromUtf8Lossy_utf8, accepted]
  rfl

/-- Where the file of the address `../sum/x` is found, whatever it holds. -/
theorem emptyStore_climbs (text : Text) :
    (storeObject [utf8 "okf".toList] emptyStore "../sum/x".toList text).fileAt
      [utf8 "okf".toList, utf8 "sum".toList, utf8 "x.md".toList] = some (utf8 text) := rfl

theorem emptyStore_stays (text : Text) :
    (storeObject [utf8 "okf".toList] emptyStore "./x".toList text).fileAt
      (fullDir [utf8 "okf".toList] ++ [utf8 ("x".toList ++ ".md".toList)]) =
        some (utf8 text) := rfl

/-- An address with `..` is accepted when the object repeats it, and the object is written beside
`full/`; with `.` it is written to a file under whose name it is not accepted. -/
theorem pullFrom_escapes :
    Authentic Unicode.ascii zeroCrypto onlyPeer [utf8 "okf".toList] emptyStore ∧
      (pullFrom Unicode.ascii zeroCrypto onlyPeer [utf8 "okf".toList] insertionOrder
        [utf8 "../sum/x".toList, utf8 (episodeText "../sum/x".toList)] emptyStore).1.volume.fileAt
          [utf8 "okf".toList, utf8 "sum".toList, utf8 "x.md".toList] =
        some (utf8 (episodeText "../sum/x".toList)) ∧
      ¬ SameOutside [utf8 "okf".toList] emptyStore
        (pullFrom Unicode.ascii zeroCrypto onlyPeer [utf8 "okf".toList] insertionOrder
          [utf8 "../sum/x".toList, utf8 (episodeText "../sum/x".toList)] emptyStore).1.volume ∧
      ¬ Authentic Unicode.ascii zeroCrypto onlyPeer [utf8 "okf".toList]
        (pullFrom Unicode.ascii zeroCrypto onlyPeer [utf8 "okf".toList] insertionOrder
          [utf8 "./x".toList, utf8 (episodeText "./x".toList)] emptyStore).1.volume := by
  have climbing := @pullFrom_episode "../sum/x".toList (by decide +kernel) (by decide +kernel)
  have staying := @pullFrom_episode "./x".toList (by decide) (by decide +kernel)
  rw [climbing, staying]
  refine ⟨emptyStore_authentic, emptyStore_climbs _, fun outside => ?_, fun authentic => ?_⟩
  · have unchanged := outside [utf8 "okf".toList, utf8 "sum".toList, utf8 "x.md".toList]
      (by decide)
    rw [emptyStore_climbs, emptyStore_fileAt] at unchanged
    cases unchanged
  · obtain ⟨text, same, cls, accepted⟩ := authentic "x".toList (utf8 (episodeText "./x".toList))
      (emptyStore_stays _)
    rw [← utf8_injective same] at accepted
    have refused : accept Unicode.ascii zeroCrypto "x".toList (episodeText "./x".toList)
        (some onlyPeer) = .error .integrityFail := by decide +kernel
    rw [refused] at accepted
    cases accepted

end KairosEngine.Swarm
