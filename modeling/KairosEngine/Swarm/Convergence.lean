import Mathlib.Data.Fintype.Basic
import KairosEngine.Swarm.Mesh

/-!
# What the stores of a mesh agree on

After pulls that lead from every node to every other, the stores have the same addresses.  Under
an address that is computed from the body they have the same body; an episode's address comes from
elsewhere, and each holder keeps its own text.
-/

namespace KairosEngine.Swarm

open KairosEngine.Library KairosEngine.Daemon FillMissing

/-- The body of an object. -/
def bodyOf (tables : Unicode) (text : Text) : Text := (parseFm tables text).2

/-- An object whose address is the one that its body gives. -/
def IsContent (tables : Unicode) {Key : Type} (crypto : Crypto Key) (addr text : Text) : Prop :=
  classify tables crypto addr (parseFm tables text).1 (bodyOf tables text) = .content

/-- No two bodies that the nodes hold meet in an address. -/
def CollisionFree (tables : Unicode) {Key Node : Type} (crypto : Crypto Key) (roots : Node → Path)
    (stores : Node → Volume) : Prop :=
  ∀ first second firstAddr secondAddr firstText secondText,
    view roots stores first firstAddr = some firstText →
      view roots stores second secondAddr = some secondText →
        addrOf tables crypto (bodyOf tables firstText) =
            addrOf tables crypto (bodyOf tables secondText) →
          norm tables (bodyOf tables firstText) = norm tables (bodyOf tables secondText)

/-- Any two texts that the nodes hold under one address have the same body. -/
def OneBody (tables : Unicode) {Node : Type} (roots : Node → Path) (stores : Node → Volume)
    (concerns : Text → Text → Prop) : Prop :=
  ∀ first second addr firstText secondText,
    view roots stores first addr = some firstText →
      view roots stores second addr = some secondText →
        concerns addr firstText → concerns addr secondText →
          norm tables (bodyOf tables firstText) = norm tables (bodyOf tables secondText)

/-- The stores before and after the pulls. -/
structure Converged (tables : Unicode) {Key Node : Type} [DecidableEq Node] (crypto : Crypto Key)
    (roster : Roster Key) (roots : Node → Path) (before after : Node → Volume) : Prop where
  addresses : ∀ node addr, addr ∈ haveAddrs (roots node) (after node) ↔
    ∃ origin, addr ∈ haveAddrs (roots origin) (before origin)
  keeps : ∀ node addr text, view roots before node addr = some text →
    view roots after node addr = some text
  origin : ∀ node addr text, view roots after node addr = some text →
    ∃ origin, view roots before origin addr = some text
  content : OneBody tables roots after (IsContent tables crypto)
  settled : ∀ pull, Completes tables roots pull after →
    runPull tables crypto roster roots pull after = after

variable {tables : Unicode} {Key Node : Type} {crypto : Crypto Key} {roster : Roster Key}
variable {roots : Node → Path} {stores : Node → Volume}

theorem isContent_iff {addr text : Text} :
    IsContent tables crypto addr text ↔ addrOf tables crypto (bodyOf tables text) = addr := by
  unfold IsContent classify
  split
  next same => exact iff_of_true rfl same
  next other =>
    refine iff_of_false ?_ other
    split
    next => exact Class.noConfusion
    next => exact Class.noConfusion

/-- The pulls bring every address to every node, and one body with each address that a body
gives. -/
theorem pulls_converge [DecidableEq Node] {pulls : List (Pull Node)}
    (orderly : AllOrderly tables crypto roster roots stores)
    (completed : GuardedRun (runPull tables crypto roster roots) (Completes tables roots) pulls
      stores)
    (connected : ∀ source target, target ∈ reached (pulls.map Pull.pair) {source})
    (collisionFree : CollisionFree tables crypto roots stores) :
    Converged tables crypto roster roots stores
      (serveAll (runPull tables crypto roster roots) pulls stores) := by
  obtain ⟨after, exchanged⟩ := runPulls_spec orderly completed
  have known : ∀ node addr,
      view roots (serveAll (runPull tables crypto roster roots) pulls stores) node addr ≠ none ↔
        ∃ origin, view roots stores origin addr ≠ none := by
    intro node addr
    rw [exchanged]
    exact exchanges_keys connected node addr
  have origin : ∀ node addr text,
      view roots (serveAll (runPull tables crypto roster roots) pulls stores) node addr =
        some text → ∃ origin, view roots stores origin addr = some text := by
    intro node addr text present
    rw [exchanged] at present
    exact exchanges_origin present
  refine ⟨?_, ?_, origin, ?_, ?_⟩
  · intro node addr
    rw [(after node).mem_haveAddrs_iff]
    refine (known node addr).trans (exists_congr fun origin => ?_)
    exact (orderly origin).mem_haveAddrs_iff.symm
  · intro node addr text present
    rw [exchanged]
    exact exchanges_keeps _ present
  · intro first second addr firstText secondText firstHeld secondHeld firstContent secondContent
    obtain ⟨firstOrigin, firstBefore⟩ := origin first addr firstText firstHeld
    obtain ⟨secondOrigin, secondBefore⟩ := origin second addr secondText secondHeld
    apply collisionFree _ _ _ _ _ _ firstBefore secondBefore
    rw [isContent_iff.mp firstContent, isContent_iff.mp secondContent]
  · intro pull completes
    apply runPull_settled after completes
    intro addr server
    exact (known pull.client addr).mpr ((known pull.server addr).mp server)

/-! ## Three nodes -/

theorem length_padded (bytes : Bytes) : ((bytes ++ List.replicate 32 0).take 32).length = 32 := by
  simp

/-- The digest of a short text is the text, and the signatures are zeros. -/
def shortCrypto : Crypto Unit where
  sha256 bytes := ⟨(bytes ++ List.replicate 32 0).take 32, length_padded bytes⟩
  verify _ _ sig := decide (sig.bytes = List.replicate 64 0)

/-- An episode under the address `x` with a body. -/
def episodeOf (body : String) : Text := episodeText "x".toList ++ body.toList

def trioRoots : Fin 3 → Path := fun _ => [utf8 "okf".toList]

/-- Two nodes with an episode under the same address, and one with nothing. -/
def trioStores : Fin 3 → Volume
  | 0 => storeObject [utf8 "okf".toList] emptyStore "x".toList (episodeOf "a")
  | 1 => storeObject [utf8 "okf".toList] emptyStore "x".toList (episodeOf "b")
  | 2 => emptyStore

def trioPull (client server : Fin 3) : Pull (Fin 3) := ⟨client, server, insertionOrder, fun _ => true⟩

/-- Pulls of nodes that have an episode. -/
def trioIdle : List (Pull (Fin 3)) := [trioPull 0 2, trioPull 1 2, trioPull 0 1, trioPull 1 0]

def trioPulls : List (Pull (Fin 3)) := trioIdle ++ [trioPull 2 0]

theorem trio_connected : ∀ source target, target ∈ reached (trioPulls.map Pull.pair) {source} := by
  decide

theorem emptyStore_orderly :
    Orderly Unicode.ascii shortCrypto onlyPeer [utf8 "okf".toList] emptyStore := by
  refine ⟨?_, fun place _ => emptyStore_fileAt place, fun name => ?_, fun name bytes file => ?_⟩
  · apply Tree.rooted_of_entries
    decide
  · rw [Bool.eq_false_iff]
    intro directory
    obtain ⟨entry, found⟩ :=
      Option.ne_none_iff_exists'.mp (Tree.entryAt_ne_none_of_isDir directory)
    rw [Tree.entryAt, if_neg (List.concat_ne_nil _ _)] at found
    have listed := Tree.mem_of_lookup found
    simp [emptyStore, fullDir] at listed
  · rw [emptyStore_fileAt] at file
    cases file

set_option maxRecDepth 2000

theorem trio_accepted :
    Accepted Unicode.ascii shortCrypto onlyPeer "x".toList (episodeOf "a") ∧
      Accepted Unicode.ascii shortCrypto onlyPeer "x".toList (episodeOf "b") := by
  constructor
  · exact ⟨.c2, by decide +kernel⟩
  · exact ⟨.c2, by decide +kernel⟩

theorem trio_orderly : AllOrderly Unicode.ascii shortCrypto onlyPeer trioRoots trioStores := by
  have listable : Listable "x".toList := by
    constructor
    · exact ⟨by decide, by decide⟩
    · decide
  intro node
  match node with
  | 0 => exact emptyStore_orderly.storeObject listable trio_accepted.1
  | 1 => exact emptyStore_orderly.storeObject listable trio_accepted.2
  | 2 => exact emptyStore_orderly

theorem trio_idle :
    ∀ pull ∈ trioIdle, Completes Unicode.ascii trioRoots pull trioStores ∧
      runPull Unicode.ascii shortCrypto onlyPeer trioRoots pull trioStores = trioStores := by
  have idle : ∀ pull ∈ trioIdle,
      wantedFrom Unicode.ascii (pull.peer trioRoots trioStores) (trioRoots pull.client) pull.order
        (trioStores pull.client) = [] := by
    decide +kernel
  have list : ∀ node, (utf8 (haveSet (trioRoots node) (trioStores node))).length ≤ frameLimit := by
    decide +kernel
  intro pull listed
  have small : SmallFrames Unicode.ascii (pull.peer trioRoots trioStores) (trioRoots pull.client)
      pull.order (trioStores pull.client) := by
    refine ⟨list pull.server, ?_, ?_⟩
    · rw [idle pull listed]
      exact fun _ none => absurd none List.not_mem_nil
    · rw [idle pull listed]
      exact fun _ none => absurd none List.not_mem_nil
  refine ⟨⟨small, ?_⟩, runPull_idle small (idle pull listed)⟩
  rw [idle pull listed]
  exact fun _ none => absurd none List.not_mem_nil

theorem trio_completed :
    GuardedRun (runPull Unicode.ascii shortCrypto onlyPeer trioRoots)
      (Completes Unicode.ascii trioRoots) trioPulls trioStores := by
  apply GuardedRun.idle_append trio_idle
  refine ⟨⟨⟨?_, ?_, ?_⟩, ?_⟩, trivial⟩
  all_goals decide +kernel

theorem trio_texts {node : Fin 3} {addr text : Text}
    (known : view trioRoots trioStores node addr = some text) :
    text = episodeOf "a" ∨ text = episodeOf "b" := by
  have stored := held_eq_some_iff.mp known
  match node with
  | 0 =>
      rcases storeObject_fileAt stored with before | ⟨_, _, same⟩
      · rw [emptyStore_fileAt] at before
        cases before
      · exact Or.inl (utf8_injective same)
  | 1 =>
      rcases storeObject_fileAt stored with before | ⟨_, _, same⟩
      · rw [emptyStore_fileAt] at before
        cases before
      · exact Or.inr (utf8_injective same)
  | 2 =>
      rw [trioStores, emptyStore_fileAt] at stored
      cases stored

theorem trio_collisionFree : CollisionFree Unicode.ascii shortCrypto trioRoots trioStores := by
  have differ : addrOf Unicode.ascii shortCrypto (bodyOf Unicode.ascii (episodeOf "a")) ≠
      addrOf Unicode.ascii shortCrypto (bodyOf Unicode.ascii (episodeOf "b")) := by
    decide +kernel
  intro first second _ _ _ _ firstHeld secondHeld same
  rcases trio_texts firstHeld with rfl | rfl
  · rcases trio_texts secondHeld with rfl | rfl
    · rfl
    · exact absurd same differ
  · rcases trio_texts secondHeld with rfl | rfl
    · exact absurd same.symm differ
    · rfl

theorem trio_converges :
    Converged Unicode.ascii shortCrypto onlyPeer trioRoots trioStores
      (serveAll (runPull Unicode.ascii shortCrypto onlyPeer trioRoots) trioPulls trioStores) :=
  pulls_converge trio_orderly trio_completed trio_connected trio_collisionFree

/-- The two episodes stay, each with its holder. -/
theorem trio_keeps_both :
    AllOrderly Unicode.ascii shortCrypto onlyPeer trioRoots trioStores ∧
      GuardedRun (runPull Unicode.ascii shortCrypto onlyPeer trioRoots)
        (Completes Unicode.ascii trioRoots) trioPulls trioStores ∧
      (∀ source target, target ∈ reached (trioPulls.map Pull.pair) {source}) ∧
      CollisionFree Unicode.ascii shortCrypto trioRoots trioStores ∧
      ¬ OneBody Unicode.ascii trioRoots
        (serveAll (runPull Unicode.ascii shortCrypto onlyPeer trioRoots) trioPulls trioStores)
        fun _ _ => True := by
  refine ⟨trio_orderly, trio_completed, trio_connected, trio_collisionFree, fun oneBody => ?_⟩
  have after : ∀ node text, view trioRoots trioStores node "x".toList = some text →
      view trioRoots (serveAll (runPull Unicode.ascii shortCrypto onlyPeer trioRoots) trioPulls
        trioStores) node "x".toList = some text := by
    intro node text known
    rw [(runPulls_spec trio_orderly trio_completed).2]
    exact exchanges_keeps _ known
  have same := oneBody 0 1 "x".toList (episodeOf "a") (episodeOf "b")
    (after 0 _ (by decide +kernel)) (after 1 _ (by decide +kernel)) trivial trivial
  revert same
  decide +kernel

end KairosEngine.Swarm
