import KairosEngine.Swarm.Store

/-!
# What a node serves

The command loop of `serve` behind the handshake.  The address of a `GET` is text that the peer
chose, and it is joined to `full/` as a path.
-/

namespace KairosEngine.Swarm

open KairosEngine.Library KairosEngine.Daemon

/-! ## Commands -/

inductive Answer
  | frame (bytes : Bytes)
  | silent
  | close
  deriving DecidableEq

/-- `str::parse::<usize>`. -/
def parseUsize (text : Text) : Option Nat :=
  let digits := (stripPrefix ['+'] text).getD text
  if digits = [] ∨ ¬ digits.all Char.isDigit then none
  else
    let value := digits.foldl (fun value digit => 10 * value + (digit.toNat - 48)) 0
    if value < 2 ^ 64 then some value else none

/-- The address of a `GET` command. -/
def requested (cmd : Bytes) : Option Text :=
  if (utf8 "GET:".toList).isPrefixOf cmd then some (fromUtf8Lossy (cmd.drop 4)) else none

section Serving

variable (tables : Unicode) (root : Path)

/-- The reply to `SIM:<c2_hex>:<k>`. -/
def simReply (volume : Volume) (query : Text) : Text :=
  match cutAt [':'] query with
  | none => []
  | some (hexs, kstr) =>
      match sigFromHex tables hexs with
      | none => []
      | some sig =>
          let k := max ((parseUsize kstr).getD 5) 1
          ['\n'].intercalate ((C2Index.findSimilar (indexStore tables root volume) sig k).map
            fun found => found.1 ++ ' ' :: Nat.toDigits 10 found.2)

def getReply (volume : Volume) (addr : Text) : Bytes :=
  match readObject root volume addr with
  | some opened => opened.2
  | none => utf8 "MISS".toList

def answer (volume : Volume) (cmd : Bytes) : Answer :=
  if cmd = utf8 "LIST".toList then .frame (utf8 (haveSet root volume))
  else
    match requested cmd with
    | some addr => .frame (getReply root volume addr)
    | none =>
        if (utf8 "SIM:".toList).isPrefixOf cmd then
          .frame (utf8 (simReply tables root volume (fromUtf8Lossy (cmd.drop 4))))
        else if cmd = utf8 "DONE".toList then .close
        else .silent

/-- The frames sent back for the commands of a session. -/
def serveCommands (volume : Volume) : List Bytes → List Bytes
  | [] => []
  | cmd :: rest =>
      match answer tables root volume cmd with
      | .frame bytes => bytes :: serveCommands volume rest
      | .silent => serveCommands volume rest
      | .close => []

/-- The commands that are looked at. -/
def served (cmds : List Bytes) : List Bytes :=
  cmds.takeWhile fun cmd => decide (cmd ≠ utf8 "DONE".toList)

/-- The files whose bytes are returned are objects that the node says it has, and the replies
depend on nothing but `full/`. -/
structure Confined (cmds : List Bytes) : Prop where
  own : ∀ cmd ∈ served cmds, ∀ addr, requested cmd = some addr → ∀ volume opened,
    readObject root volume addr = some opened →
      ∃ held ∈ haveAddrs root volume, opened.1 = fullDir root ++ [utf8 (held ++ ".md".toList)]
  blind : ∀ first second, SameFull root first second →
    serveCommands tables root first cmds = serveCommands tables root second cmds

/-- The path is refused, or is a directory on its own way, or it leads into `full/` through
directories above or below it only. -/
def StaysInFull (addr : Text) : Prop :=
  '\x00' ∈ addr ∨ objectPath root addr ∈ visits [] (objectHops root addr) ∨
    target [] (objectHops root addr) = fullDir root ∧
      ∀ place ∈ visits [] (objectHops root addr), place <+: fullDir root ∨ fullDir root <+: place

instance (addr : Text) : Decidable (StaysInFull root addr) :=
  inferInstanceAs (Decidable (_ ∨ _ ∨ _))

end Serving

variable {tables : Unicode} {root : Path} {addr : Text}

theorem staysInFull_plain (plain : '/' ∉ addr) : StaysInFull root addr := by
  apply Or.inr
  apply Or.inr
  rw [objectHops_plain plain]
  constructor
  · rw [target_down, List.nil_append]
  · intro place visited
    exact .inl (mem_visits_down.mp visited)

/-! ## Addresses that stay -/

theorem readObject_refused {volume : Volume}
    (refused : '\x00' ∈ addr ∨ objectPath root addr ∈ visits [] (objectHops root addr)) :
    readObject root volume addr = none := by
  by_contra read
  obtain ⟨opened, read⟩ := Option.ne_none_iff_exists'.mp read
  rcases refused with null | blocked
  · rw [readObject, if_pos null] at read
    cases read
  · obtain ⟨path, stored, directories⟩ := readObject_path read
    rw [path, Tree.fileAt_of_isDir (directories _ blocked)] at stored
    cases stored

/-- Whoever reads through a path into `full/` has passed the directories above it. -/
theorem above_of_visits {volume : Volume} (lands : target [] (objectHops root addr) = fullDir root)
    (directories : ∀ place ∈ visits [] (objectHops root addr), volume.isDir place = true)
    (place : Path) (above : place <+: fullDir root) : volume.isDir place = true := by
  apply directories
  apply visits_above_root (target_mem_visits [] (objectHops root addr))
  rwa [lands]

theorem StaysInFull.own (stays : StaysInFull root addr) {volume : Volume} {opened : Path × Bytes}
    (read : readObject root volume addr = some opened) :
    ∃ held ∈ haveAddrs root volume, opened.1 = fullDir root ++ [utf8 (held ++ ".md".toList)] := by
  rcases stays with null | blocked | ⟨lands, _⟩
  · rw [readObject_refused (.inl null)] at read
    cases read
  · rw [readObject_refused (.inr blocked)] at read
    cases read
  · obtain ⟨path, stored, directories⟩ := readObject_path read
    have place : opened.1 = fullDir root ++ [utf8 (leaf addr ++ ".md".toList)] := by
      rw [path, objectPath, lands, objectName]
    rw [place] at stored
    exact ⟨leaf addr, mem_haveAddrs (above_of_visits lands directories) stored, place⟩

theorem StaysInFull.blind (stays : StaysInFull root addr) {first second : Volume}
    (same : SameFull root first second) :
    readObject root first addr = readObject root second addr := by
  rcases stays with null | blocked | ⟨lands, near⟩
  · rw [readObject_refused (.inl null), readObject_refused (.inl null)]
  · rw [readObject_refused (.inr blocked), readObject_refused (.inr blocked)]
  · have opens : ∀ volume : Volume, volume.follow [] ((fullDir root).map .down) = none →
        readObject root volume addr = none := by
      intro volume closed
      by_contra read
      obtain ⟨opened, read⟩ := Option.ne_none_iff_exists'.mp read
      have directories := above_of_visits lands (readObject_path read).2.2
      have reached := Tree.follow_eq_some_iff.mpr
        ⟨fun place visited => directories place (mem_visits_down.mp visited), rfl⟩
      rw [reached] at closed
      cases closed
    cases reached : first.follow [] ((fullDir root).map .down) with
    | none => rw [opens first reached, opens second (same.reached ▸ reached)]
    | some dir =>
        have above := (Tree.follow_eq_some_iff.mp reached).1
        have aboveToo := (Tree.follow_eq_some_iff.mp (same.reached ▸ reached)).1
        have followed : first.follow [] (objectHops root addr) =
            second.follow [] (objectHops root addr) := by
          apply Tree.follow_congr
          intro place visited
          rcases near place visited with higher | lower
          · rw [above place (mem_visits_down.mpr higher),
              aboveToo place (mem_visits_down.mpr higher)]
          · exact Tree.isDir_below fullDir_ne_nil same.below lower
        have stored : first.fileAt (fullDir root ++ [objectName addr]) =
            second.fileAt (fullDir root ++ [objectName addr]) :=
          Tree.fileAt_below fullDir_ne_nil same.below (List.prefix_append _ _)
        unfold readObject
        rw [← followed]
        split
        next => rfl
        next =>
          cases arrived : first.follow [] (objectHops root addr) with
          | none => rfl
          | some dir =>
              rw [(Tree.follow_eq_some_iff.mp arrived).2, lands, Option.bind_some,
                Option.bind_some, stored]

/-! ## Addresses that do not -/

/-- The directories of the path and the file at its end. -/
def spelled (root : Path) (addr : Text) (passed : Path → Bool) : Volume :=
  Tree.built ((visits [] (objectHops root addr)).filter passed) (objectPath root addr) []

theorem readObject_spelled (null : '\x00' ∉ addr)
    (free : objectPath root addr ∉ visits [] (objectHops root addr)) :
    readObject root (spelled root addr fun _ => true) addr = some (objectPath root addr, []) := by
  have reached : (spelled root addr fun _ => true).follow [] (objectHops root addr) =
      some (target [] (objectHops root addr)) := by
    apply Tree.follow_eq_some_iff.mpr
    refine ⟨fun place visited => ?_, rfl⟩
    exact Tree.isDir_built.mpr (.inr (List.mem_filter.mpr ⟨visited, rfl⟩))
  have stored : (spelled root addr fun _ => true).fileAt (objectPath root addr) = some [] := by
    apply Tree.fileAt_built (List.concat_ne_nil _ _)
    intro listed
    exact free (List.mem_filter.mp listed).1
  rw [readObject, if_neg null, reached, Option.bind_some]
  exact congrArg (Option.map _) stored

/-- A place on the way that is neither above nor below `full/` can be missing without `full/`
being different. -/
theorem sees_outside (null : '\x00' ∉ addr)
    (free : objectPath root addr ∉ visits [] (objectHops root addr))
    (lands : target [] (objectHops root addr) = fullDir root) {place : Path}
    (visited : place ∈ visits [] (objectHops root addr))
    (apart : ¬ (place <+: fullDir root ∨ fullDir root <+: place)) :
    ∃ first second, SameFull root first second ∧
      getReply root first addr ≠ getReply root second addr := by
  let near : Path → Bool := fun place =>
    decide (place <+: fullDir root ∨ fullDir root <+: place)
  have lined : ∀ passed : Path → Bool, (∀ place, near place = true → passed place = true) →
      (spelled root addr passed).follow [] ((fullDir root).map .down) = some (fullDir root) := by
    intro passed allowed
    apply Tree.follow_eq_some_iff.mpr
    constructor
    · intro above onTheWay
      have higher := mem_visits_down.mp onTheWay
      apply Tree.isDir_built.mpr
      apply Or.inr
      apply List.mem_filter.mpr
      constructor
      · apply visits_above_root (target_mem_visits [] (objectHops root addr))
        rwa [lands]
      · exact allowed above (decide_eq_true (.inl higher))
    · rw [target_down, List.nil_append]
  refine ⟨spelled root addr fun _ => true, spelled root addr near, ⟨?_, ?_⟩, ?_⟩
  · rw [lined (fun _ => true) fun _ _ => rfl, lined near fun _ known => known]
  · simp only [Tree.below, spelled, Tree.built, List.filter_append, List.filter_map,
      List.filter_filter]
    congr 2
    apply List.filter_congr
    intro dir _
    by_cases lower : fullDir root <+: dir
    · simp [near, lower]
    · simp [lower]
  · have missed : readObject root (spelled root addr near) addr = none := by
      by_contra read
      obtain ⟨opened, read⟩ := Option.ne_none_iff_exists'.mp read
      rcases Tree.isDir_built.mp ((readObject_path read).2.2 place visited) with top | listed
      · exact apart (.inl (top ▸ List.nil_prefix))
      · exact apart (of_decide_eq_true (List.mem_filter.mp listed).2)
    rw [getReply, getReply, readObject_spelled null free, missed]
    exact (by decide : ([] : Bytes) ≠ utf8 "MISS".toList)

/-- A `GET` returns objects of the node only, and says nothing about the rest of the volume,
exactly when its address stays in `full/`. -/
theorem get_confined_iff :
    ((∀ volume opened, readObject root volume addr = some opened →
        ∃ held ∈ haveAddrs root volume, opened.1 = fullDir root ++ [utf8 (held ++ ".md".toList)]) ∧
      ∀ first second, SameFull root first second →
        getReply root first addr = getReply root second addr) ↔ StaysInFull root addr := by
  constructor
  · rintro ⟨own, blind⟩
    by_cases null : '\x00' ∈ addr
    · exact .inl null
    by_cases free : objectPath root addr ∈ visits [] (objectHops root addr)
    · exact .inr (.inl free)
    apply Or.inr
    apply Or.inr
    obtain ⟨held, _, path⟩ := own _ _ (readObject_spelled null free)
    have lands := (List.append_inj' path rfl).1
    refine ⟨lands, fun place visited => ?_⟩
    by_contra apart
    obtain ⟨first, second, same, differ⟩ := sees_outside null free lands visited apart
    exact differ (blind first second same)
  · intro stays
    constructor
    · intro volume opened read
      exact stays.own read
    · intro first second same
      rw [getReply, getReply, stays.blind same]

/-! ## Sessions -/

theorem answer_get {volume : Volume} {cmd : Bytes} (get : requested cmd = some addr) :
    answer tables root volume cmd = .frame (getReply root volume addr) := by
  unfold answer
  split
  next list =>
    rw [list] at get
    cases get
  next => rw [get]

theorem requested_done : requested (utf8 "DONE".toList) = none := by decide

theorem answer_done {volume : Volume} : answer tables root volume (utf8 "DONE".toList) = .close := by
  rw [answer, if_neg (by decide), requested_done, if_neg (by decide), if_pos rfl]

/-- A command that is no `GET` is answered from `full/`. -/
theorem answer_blind {cmd : Bytes} (other : requested cmd = none) {first second : Volume}
    (same : SameFull root first second) :
    answer tables root first cmd = answer tables root second cmd := by
  unfold answer
  rw [other, haveSet, haveSet, same.haveAddrs]
  simp only [simReply, same.indexStore tables]

theorem answer_ne_close {volume : Volume} {cmd : Bytes} (going : cmd ≠ utf8 "DONE".toList) :
    answer tables root volume cmd ≠ .close := by
  unfold answer
  rw [if_neg going]
  split
  · nofun
  split
  · nofun
  split
  · nofun
  · nofun

theorem served_cons {cmd : Bytes} (going : cmd ≠ utf8 "DONE".toList) (rest : List Bytes) :
    served (cmd :: rest) = cmd :: served rest :=
  List.takeWhile_cons_of_pos (decide_eq_true going)

theorem serveCommands_get {cmd : Bytes} (get : requested cmd = some addr) (volume : Volume)
    (rest : List Bytes) :
    serveCommands tables root volume (cmd :: rest) =
      getReply root volume addr :: serveCommands tables root volume rest := by
  rw [serveCommands, answer_get get]

/-- Behind a command that is no `GET` the replies are the same when the rest is. -/
theorem serveCommands_other {cmd : Bytes} (other : requested cmd = none)
    (going : cmd ≠ utf8 "DONE".toList) {first second : Volume} (same : SameFull root first second)
    (rest : List Bytes) :
    serveCommands tables root first (cmd :: rest) =
        serveCommands tables root second (cmd :: rest) ↔
      serveCommands tables root first rest = serveCommands tables root second rest := by
  rw [serveCommands, serveCommands, ← answer_blind other same]
  split
  next => rw [List.cons.injEq, and_iff_right rfl]
  next => exact Iff.rfl
  next closed => exact absurd closed (answer_ne_close going)

/-- A session returns nothing but what `full/` holds exactly when every address that it asks for
stays there. -/
theorem serve_confined_iff (tables : Unicode) (root : Path) (cmds : List Bytes) :
    Confined tables root cmds ↔
      ∀ cmd ∈ served cmds, ∀ addr, requested cmd = some addr → StaysInFull root addr := by
  induction cmds with
  | nil =>
      constructor
      · intro _ cmd impossible
        cases impossible
      · intro _
        exact ⟨fun cmd impossible => (List.not_mem_nil impossible).elim, fun _ _ _ => rfl⟩
  | cons cmd rest inductionHypothesis =>
      by_cases done : cmd = utf8 "DONE".toList
      · subst done
        have nothing : served (utf8 "DONE".toList :: rest) = [] := rfl
        rw [nothing]
        constructor
        · intro _ cmd impossible
          cases impossible
        · intro _
          refine ⟨fun cmd impossible => ?_, fun first second _ => ?_⟩
          · rw [nothing] at impossible
            cases impossible
          · rw [serveCommands, serveCommands, answer_done, answer_done]
      · rw [served_cons done, List.forall_mem_cons, ← inductionHypothesis]
        cases get : requested cmd with
        | none =>
            constructor
            · intro confined
              refine ⟨nofun, fun later member => ?_, fun first second same => ?_⟩
              · exact confined.own later (served_cons done rest ▸ List.mem_cons_of_mem cmd member)
              · exact (serveCommands_other get done same rest).mp (confined.blind first second same)
            · rintro ⟨_, confined⟩
              refine ⟨fun later member => ?_, fun first second same => ?_⟩
              · rw [served_cons done] at member
                rcases List.mem_cons.mp member with rfl | member
                · rw [get]
                  nofun
                · exact confined.own later member
              · exact (serveCommands_other get done same rest).mpr
                  (confined.blind first second same)
        | some addr =>
            simp only [Option.some.injEq, forall_eq']
            rw [← get_confined_iff]
            constructor
            · intro confined
              refine ⟨⟨?_, fun first second same => ?_⟩, fun later member => ?_,
                fun first second same => ?_⟩
              · exact confined.own cmd (served_cons done rest ▸ List.mem_cons_self) addr get
              · have replies := confined.blind first second same
                rw [serveCommands_get get, serveCommands_get get] at replies
                exact (List.cons.inj replies).1
              · exact confined.own later (served_cons done rest ▸ List.mem_cons_of_mem cmd member)
              · have replies := confined.blind first second same
                rw [serveCommands_get get, serveCommands_get get] at replies
                exact (List.cons.inj replies).2
            · rintro ⟨⟨own, blind⟩, confined⟩
              refine ⟨fun later member => ?_, fun first second same => ?_⟩
              · rw [served_cons done] at member
                rcases List.mem_cons.mp member with rfl | member
                · intro addr known
                  cases get.symm.trans known
                  exact own
                · exact confined.own later member
              · rw [serveCommands_get get, serveCommands_get get, blind first second same,
                  confined.blind first second same]

/-- A store with an empty `full/` and a summary next to it. -/
def summaryOnly : Volume where
  entries :=
    [([utf8 "okf".toList], .directory),
      ([utf8 "okf".toList, utf8 "full".toList], .directory),
      ([utf8 "okf".toList, utf8 "sum".toList], .directory),
      ([utf8 "okf".toList, utf8 "sum".toList, utf8 "x.md".toList], .file (utf8 "kept".toList))]

/-- `GET:../sum/x` returns a file beside `full/`. -/
theorem get_returns_summary :
    serveCommands Unicode.ascii [utf8 "okf".toList] summaryOnly [utf8 "GET:../sum/x".toList] =
        [utf8 "kept".toList] ∧
      (readObject [utf8 "okf".toList] summaryOnly "../sum/x".toList).map Prod.fst =
        some [utf8 "okf".toList, utf8 "sum".toList, utf8 "x.md".toList] ∧
      ¬ Confined Unicode.ascii [utf8 "okf".toList] [utf8 "GET:../sum/x".toList] := by
  refine ⟨rfl, rfl, fun confined => ?_⟩
  have listed := confined.own (utf8 "GET:../sum/x".toList) (by decide +kernel) "../sum/x".toList
    (rfl) summaryOnly
    ([utf8 "okf".toList, utf8 "sum".toList, utf8 "x.md".toList], utf8 "kept".toList)
    (rfl)
  obtain ⟨held, member, _⟩ := listed
  have nothing : haveAddrs [utf8 "okf".toList] summaryOnly = [] := rfl
  rw [nothing] at member
  cases member

end KairosEngine.Swarm
