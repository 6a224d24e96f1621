import KairosEngine.Swarm.Framing

/-!
# What a pull accounts for

Every address that the peer lists and the store lacks is in one of the two lists of the
report, once, and what is reported as pulled is in its file.
-/

namespace KairosEngine.Swarm

open KairosEngine.Library KairosEngine.Daemon

/-- A pull that returned `Ok`, whose report names every wanted address once, and whose pulled
objects are in their files as they were received; the files only where a write is carried out. -/
structure Accounts (tables : Unicode) (server : Server) (root : Path) (order : HashOrder)
    (volume : Volume) (carried : Text → Prop) (result : Except Stop Unit × Sync) : Prop where
  ok : result.1 = .ok ()
  once : ∀ addr, (result.2.pulled ++ result.2.rejected.map Prod.fst).count addr =
    if addr ∈ textLines (haveSet server.root (server.stores 0)) ∧ addr ≠ [] ∧
      addr ∉ haveAddrs root volume then 1 else 0
  stored : ∀ request ∈ requestsFrom server 1 (wantedFrom tables server root order volume),
    request.1 ∈ result.2.pulled → carried request.1 →
      result.2.volume.fileAt (objectFile root request.1) = some (utf8 (fromUtf8Lossy request.2))

variable {tables : Unicode} {server : Server} {Key : Type} {crypto : Crypto Key}
variable {roster : Roster Key} {root : Path} {disk : Text → Bool} {order : HashOrder}
variable {volume : Volume}

/-- Under an address that the store lacks there is no directory either. -/
theorem free_of_lacking (rooted : volume.Rooted) {addr : Text}
    (lacking : addr ∉ haveAddrs root volume) : volume.isDir (objectFile root addr) = false := by
  rw [Bool.eq_false_iff]
  intro directory
  apply lacking
  have above := rooted.above directory
  have reached : volume.follow [] ((fullDir root).map .down) = some (fullDir root) := by
    apply Tree.follow_eq_some_iff.mpr
    constructor
    · intro place visited
      exact above place ((mem_visits_down.mp visited).trans (List.prefix_append _ _))
    · rw [target_down, List.nil_append]
  rw [haveAddrs, List.mem_dedup, List.mem_filterMap, listing, reached]
  exact ⟨_, Tree.mem_names_iff.mpr (Tree.entryAt_ne_none_of_isDir directory), objectAddr_utf8 addr⟩

/-- While no frame is larger than the receiver's limit, a pull accounts for every object. -/
theorem pullOver_accounts (crypto : Crypto Key) (roster : Roster Key) (disk : Text → Bool)
    (names : ∀ name ∈ listing server.root (server.stores 0),
      (0x2F : UInt8) ∉ name ∧ (0x00 : UInt8) ∉ name)
    (rooted : volume.Rooted) (small : SmallFrames tables server root order volume) :
    Accounts tables server root order volume
      (fun addr => Reachable root volume ∧ disk addr = true)
      (pullOver tables server crypto roster root disk order volume) := by
  have lacking : ∀ request ∈ requestsFrom server 1 (wantedFrom tables server root order volume),
      request.1 ∈ textLines (haveSet server.root (server.stores 0)) ∧ request.1 ≠ [] ∧
        request.1 ∉ haveAddrs root volume := by
    intro request member
    have listed := List.mem_map_of_mem (f := Prod.fst) member
    rw [map_fst_requestsFrom] at listed
    exact mem_wantedFrom.mp listed
  rw [pullOver_small small]
  refine ⟨rfl, ?_, ?_⟩
  · intro addr
    have reports := @serveAll_reports tables _ crypto roster root disk
      (requestsFrom server 1 (wantedFrom tables server root order volume))
      ((Query.list order).opened volume)
    rw [map_fst_requestsFrom] at reports
    simp only at reports ⊢
    rw [reports.count_eq]
    simp only [Query.opened, List.map_nil, List.append_nil]
    by_cases wanted : addr ∈ wantedFrom tables server root order volume
    · rw [List.count_eq_one_of_mem (nodup_wantedFrom volume) wanted, if_pos (mem_wantedFrom.mp wanted)]
    · rw [List.count_eq_zero_of_not_mem wanted, if_neg fun known => wanted (mem_wantedFrom.mpr known)]
  · rintro request member pulled ⟨reachable, carried⟩
    apply serveAll_stored (fun request member => plain_of_listed names (lacking request member).1)
      ?_ reachable (fun request member => free_of_lacking rooted (lacking request member).2.2)
      (fun request member => List.not_mem_nil) request member pulled carried
    rw [map_fst_requestsFrom]
    exact nodup_wantedFrom volume

/-! ## Two exchanges -/

/-- A store with one object. -/
def oneObject (bytes : Bytes) : Volume where
  entries :=
    [([utf8 "okf".toList], .directory),
      ([utf8 "okf".toList, utf8 "full".toList], .directory),
      ([utf8 "okf".toList, utf8 "full".toList, utf8 "x.md".toList], .file bytes)]

/-- A peer whose store stays as it is. -/
def oneObjectServer (bytes : Bytes) : Server := ⟨[utf8 "okf".toList], fun _ => oneObject bytes⟩

theorem listing_oneObject (bytes : Bytes) :
    listing [utf8 "okf".toList] (oneObject bytes) = [utf8 "x.md".toList] := rfl

theorem haveSet_oneObject (bytes : Bytes) :
    haveSet [utf8 "okf".toList] (oneObject bytes) = "x".toList := by
  rw [haveSet, haveAddrs, listing_oneObject]
  decide +kernel

theorem wantedFrom_oneObject (bytes : Bytes) :
    wantedFrom Unicode.ascii (oneObjectServer bytes) [utf8 "okf".toList] insertionOrder emptyStore =
      ["x".toList] := by
  rw [wantedFrom, oneObjectServer, haveSet_oneObject]
  rfl

theorem requestsFrom_oneObject (bytes : Bytes) (number : Nat) :
    requestsFrom (oneObjectServer bytes) number ["x".toList] = [("x".toList, bytes)] := rfl

theorem smallFrames_oneObject_iff (bytes : Bytes) :
    SmallFrames Unicode.ascii (oneObjectServer bytes) [utf8 "okf".toList] insertionOrder emptyStore ↔
      bytes.length ≤ frameLimit := by
  constructor
  · intro small
    have object := small.object
    rw [wantedFrom_oneObject, requestsFrom_oneObject] at object
    exact object ("x".toList, bytes) (List.mem_singleton_self _)
  · intro within
    refine ⟨?_, ?_, ?_⟩
    · rw [oneObjectServer, haveSet_oneObject]
      decide
    · rw [wantedFrom_oneObject]
      decide
    · rw [wantedFrom_oneObject, requestsFrom_oneObject]
      intro request member
      rw [List.mem_singleton.mp member]
      exact within

theorem pullOver_accounts_episode :
    Accounts Unicode.ascii (oneObjectServer (utf8 (episodeText "x".toList))) [utf8 "okf".toList]
      insertionOrder emptyStore (fun _ => Reachable [utf8 "okf".toList] emptyStore ∧ true = true)
      (pullOver Unicode.ascii (oneObjectServer (utf8 (episodeText "x".toList))) zeroCrypto onlyPeer
        [utf8 "okf".toList] (fun _ => true) insertionOrder emptyStore) := by
  apply pullOver_accounts
  · intro name listed
    rw [oneObjectServer, listing_oneObject, List.mem_singleton] at listed
    rw [listed]
    decide
  · apply Tree.rooted_of_entries
    decide
  · rw [smallFrames_oneObject_iff]
    decide +kernel

/-- One object of a byte over the limit: the pull ends with an error. -/
theorem pullOver_refuses :
    ¬ Accounts Unicode.ascii (oneObjectServer (List.replicate (frameLimit + 1) 0x61))
      [utf8 "okf".toList] insertionOrder emptyStore (fun _ => True)
      (pullOver Unicode.ascii (oneObjectServer (List.replicate (frameLimit + 1) 0x61)) zeroCrypto
        onlyPeer [utf8 "okf".toList] (fun _ => true) insertionOrder emptyStore) := by
  intro accounts
  have fits : FittingFrames Unicode.ascii
      (oneObjectServer (List.replicate (frameLimit + 1) 0x61)) [utf8 "okf".toList] insertionOrder
        emptyStore := by
    refine ⟨?_, ?_, ?_⟩
    · rw [oneObjectServer, haveSet_oneObject]
      decide
    · rw [wantedFrom_oneObject]
      decide
    · rw [wantedFrom_oneObject, requestsFrom_oneObject]
      intro request member
      rw [List.mem_singleton.mp member, List.length_replicate]
      decide
  have small := (smallFrames_oneObject_iff _).mp ((pullOver_ok_iff fits).mp accounts.ok)
  rw [List.length_replicate] at small
  exact absurd small (Nat.not_succ_le_self frameLimit)

end KairosEngine.Swarm
