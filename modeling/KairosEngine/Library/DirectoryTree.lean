import Mathlib.Data.List.Basic
import Mathlib.Data.List.Induction
import Mathlib.Data.List.Infix

/-!
# Directory trees

A volume as a table of entries, and the resolution of relative paths in it: every position that is
passed must be a directory.  There are no links, so the place that a path leads to does not depend
on the volume.
-/

namespace KairosEngine.Library

universe u v

/-- One component of a path. -/
inductive Hop (Name : Type u)
  | stay
  | up
  | down (name : Name)
  deriving DecidableEq

inductive TreeEntry (Content : Type v)
  | directory
  | file (content : Content)
  deriving DecidableEq

/-- The entries by their paths from the root, which is a directory itself. -/
structure Tree (Name : Type u) (Content : Type v) where
  entries : List (List Name × TreeEntry Content)
  deriving DecidableEq

section Lexical

variable {Name : Type u}

def Hop.apply (path : List Name) : Hop Name → List Name
  | .stay => path
  | .up => path.dropLast
  | .down name => path ++ [name]

/-- The positions that the hops pass, both ends included. -/
def visits (path : List Name) : List (Hop Name) → List (List Name)
  | [] => [path]
  | hop :: rest => path :: visits (hop.apply path) rest

def target (path : List Name) (hops : List (Hop Name)) : List Name := hops.foldl Hop.apply path

theorem start_mem_visits (path : List Name) (hops : List (Hop Name)) : path ∈ visits path hops := by
  cases hops with
  | nil => exact List.mem_singleton_self path
  | cons hop rest => exact List.mem_cons_self

theorem target_mem_visits (path : List Name) (hops : List (Hop Name)) :
    target path hops ∈ visits path hops := by
  induction hops generalizing path with
  | nil => exact List.mem_singleton_self path
  | cons hop rest inductionHypothesis =>
      exact List.mem_cons_of_mem path (inductionHypothesis (hop.apply path))

theorem target_down (path names : List Name) : target path (names.map .down) = path ++ names := by
  induction names generalizing path with
  | nil => exact (List.append_nil path).symm
  | cons name rest inductionHypothesis =>
      exact (inductionHypothesis (path ++ [name])).trans (List.append_cons path name rest).symm

/-- What lies above a position was passed on the way down to it. -/
theorem visits_above {path place above : List Name} {hops : List (Hop Name)}
    (visited : place ∈ visits path hops) (prefixed : above <+: place) :
    above <+: path ∨ above ∈ visits path hops := by
  induction hops generalizing path with
  | nil =>
      rw [visits, List.mem_singleton] at visited
      exact .inl (visited ▸ prefixed)
  | cons hop rest inductionHypothesis =>
      rcases List.mem_cons.mp visited with here | later
      · exact .inl (here ▸ prefixed)
      rcases inductionHypothesis later with higher | passed
      · cases hop with
        | stay => exact .inl higher
        | up => exact .inl (higher.trans (List.dropLast_prefix path))
        | down name =>
            rcases List.prefix_concat_iff.mp higher with same | higher
            · apply Or.inr
              rw [same]
              exact List.mem_cons_of_mem path (start_mem_visits (path ++ [name]) rest)
            · exact .inl higher
      · exact .inr (List.mem_cons_of_mem path passed)

theorem visits_above_root {place above : List Name} {hops : List (Hop Name)}
    (visited : place ∈ visits [] hops) (prefixed : above <+: place) : above ∈ visits [] hops := by
  rcases visits_above visited prefixed with root | passed
  · rw [List.prefix_nil.mp root]
    exact start_mem_visits [] hops
  · exact passed

/-- A plain descent passes what lies above its end. -/
theorem mem_visits_down {names place : List Name} :
    place ∈ visits [] (names.map .down) ↔ place <+: names := by
  constructor
  · have passed : ∀ path, place ∈ visits path (names.map .down) → place <+: path ++ names := by
      induction names with
      | nil =>
          intro path visited
          rw [List.mem_singleton.mp visited, List.append_nil]
      | cons name rest inductionHypothesis =>
          intro path visited
          rcases List.mem_cons.mp visited with here | later
          · exact ⟨name :: rest, by rw [here]⟩
          · have below := inductionHypothesis (path ++ [name]) later
            rwa [List.append_assoc] at below
    exact passed []
  · have whole := target_mem_visits [] (names.map .down : List (Hop Name))
    rw [target_down, List.nil_append] at whole
    exact visits_above_root whole

end Lexical

namespace Tree

variable {Name : Type u} {Content : Type v} [DecidableEq Name]

section Reading

variable (tree : Tree Name Content)

def entryAt (path : List Name) : Option (TreeEntry Content) :=
  if path = [] then some .directory else tree.entries.lookup path

def isDir (path : List Name) : Bool :=
  match tree.entryAt path with
  | some .directory => true
  | _ => false

def fileAt (path : List Name) : Option Content :=
  match tree.entryAt path with
  | some (.file content) => some content
  | _ => none

/-- The directory that the hops lead to. -/
def follow (path : List Name) : List (Hop Name) → Option (List Name)
  | [] => if tree.isDir path then some path else none
  | hop :: rest => if tree.isDir path then follow (hop.apply path) rest else none

/-- The entries at or below a directory. -/
def below (dir : List Name) : List (List Name × TreeEntry Content) :=
  tree.entries.filter fun entry => decide (dir <+: entry.1)

/-- The names of the entries directly in a directory, in the order of the table. -/
def names (dir : List Name) : List Name :=
  (tree.below dir).filterMap fun entry =>
    match entry.1.drop dir.length with
    | [name] => some name
    | _ => none

end Reading

variable {tree other : Tree Name Content}

theorem follow_eq_some_iff {path dir : List Name} {hops : List (Hop Name)} :
    tree.follow path hops = some dir ↔
      (∀ place ∈ visits path hops, tree.isDir place = true) ∧ dir = target path hops := by
  induction hops generalizing path with
  | nil =>
      simp only [follow, visits, List.mem_singleton, forall_eq, target, List.foldl_nil]
      cases tree.isDir path with
      | false => simp
      | true => simp [eq_comm]
  | cons hop rest inductionHypothesis =>
      simp only [follow, visits, List.forall_mem_cons]
      cases tree.isDir path with
      | false => simp
      | true =>
          simp only [if_true, true_and, inductionHypothesis]
          rfl

theorem fileAt_of_isDir {path : List Name} (directory : tree.isDir path = true) :
    tree.fileAt path = none := by
  unfold isDir at directory
  unfold fileAt
  split at directory
  next found => rw [found]
  next => cases directory

theorem fileAt_ne_root {path : List Name} {content : Content}
    (stored : tree.fileAt path = some content) : path ≠ [] := by
  rintro rfl
  cases stored

/-- Trees in which the passed positions are the same directories lead to the same place. -/
theorem follow_congr {path : List Name} {hops : List (Hop Name)}
    (same : ∀ place ∈ visits path hops, tree.isDir place = other.isDir place) :
    tree.follow path hops = other.follow path hops := by
  apply Option.ext
  intro dir
  rw [follow_eq_some_iff, follow_eq_some_iff]
  apply and_congr_left
  intro _
  constructor
  · intro directories place visited
    exact same place visited ▸ directories place visited
  · intro directories place visited
    exact (same place visited).symm ▸ directories place visited

/-! ## What lies below a directory -/

theorem lookup_below {dir path : List Name} (inside : dir <+: path) :
    (tree.below dir).lookup path = tree.entries.lookup path := by
  unfold below
  induction tree.entries with
  | nil => rfl
  | cons entry rest inductionHypothesis =>
      by_cases same : path = entry.1
      · rw [List.filter_cons_of_pos (by simpa [← same] using inside), List.lookup_cons,
          List.lookup_cons, inductionHypothesis]
      · have unequal : (path == entry.1) = false := beq_false_of_ne same
        rw [List.filter_cons, List.lookup_cons, unequal]
        split
        · rw [List.lookup_cons, unequal]
          exact inductionHypothesis
        · exact inductionHypothesis

theorem entryAt_below {dir path : List Name} (nested : dir ≠ [])
    (same : tree.below dir = other.below dir) (inside : dir <+: path) :
    tree.entryAt path = other.entryAt path := by
  have notRoot : path ≠ [] := by
    rintro rfl
    exact nested (List.prefix_nil.mp inside)
  rw [entryAt, entryAt, if_neg notRoot, if_neg notRoot, ← lookup_below inside, same,
    lookup_below inside]

theorem fileAt_below {dir path : List Name} (nested : dir ≠ [])
    (same : tree.below dir = other.below dir) (inside : dir <+: path) :
    tree.fileAt path = other.fileAt path := by
  rw [fileAt, fileAt, entryAt_below nested same inside]

theorem isDir_below {dir path : List Name} (nested : dir ≠ [])
    (same : tree.below dir = other.below dir) (inside : dir <+: path) :
    tree.isDir path = other.isDir path := by
  rw [isDir, isDir, entryAt_below nested same inside]

theorem names_below {dir : List Name} (same : tree.below dir = other.below dir) :
    tree.names dir = other.names dir := by
  rw [names, names, same]

theorem mem_of_lookup {entries : List (List Name × TreeEntry Content)} {path : List Name}
    {entry : TreeEntry Content} (found : entries.lookup path = some entry) :
    (path, entry) ∈ entries := by
  induction entries with
  | nil => cases found
  | cons head rest inductionHypothesis =>
      rw [List.lookup_cons] at found
      split at found
      next same =>
        rw [← Option.some.inj found, beq_iff_eq.mp same]
        exact List.mem_cons_self
      next => exact List.mem_cons_of_mem head (inductionHypothesis found)

theorem mem_of_fileAt {path : List Name} {content : Content}
    (stored : tree.fileAt path = some content) : (path, .file content) ∈ tree.entries := by
  have notRoot := fileAt_ne_root stored
  unfold fileAt entryAt at stored
  rw [if_neg notRoot] at stored
  split at stored
  next found =>
    cases stored
    exact mem_of_lookup found
  next => cases stored

theorem mem_names_of_entry {dir : List Name} {name : Name} {entry : TreeEntry Content}
    (listed : (dir ++ [name], entry) ∈ tree.entries) : name ∈ tree.names dir := by
  apply List.mem_filterMap.mpr
  refine ⟨(dir ++ [name], entry), List.mem_filter.mpr ⟨listed, ?_⟩, ?_⟩
  · exact decide_eq_true (List.prefix_append dir [name])
  · simp only [List.drop_left]

/-- A file directly in a directory is listed there. -/
theorem mem_names {dir : List Name} {name : Name} {content : Content}
    (stored : tree.fileAt (dir ++ [name]) = some content) : name ∈ tree.names dir :=
  mem_names_of_entry (mem_of_fileAt stored)

theorem lookup_ne_none {entries : List (List Name × TreeEntry Content)} {path : List Name}
    {entry : TreeEntry Content} (listed : (path, entry) ∈ entries) : entries.lookup path ≠ none := by
  induction entries with
  | nil => cases listed
  | cons head rest inductionHypothesis =>
      rw [List.lookup_cons]
      split
      next => exact Option.some_ne_none head.2
      next unequal =>
        rcases List.mem_cons.mp listed with rfl | later
        · rw [beq_self_eq_true] at unequal
          cases unequal
        · exact inductionHypothesis later

/-- The names in a directory are those under which something is there. -/
theorem mem_names_iff {dir : List Name} {name : Name} :
    name ∈ tree.names dir ↔ tree.entryAt (dir ++ [name]) ≠ none := by
  rw [entryAt, if_neg (List.concat_ne_nil name dir)]
  constructor
  · intro listed
    obtain ⟨⟨path, entry⟩, member, named⟩ := List.mem_filterMap.mp listed
    obtain ⟨member, inside⟩ := List.mem_filter.mp member
    obtain ⟨rest, rfl⟩ := of_decide_eq_true inside
    simp only [List.drop_left] at named
    split at named
    next _ =>
      cases named
      exact lookup_ne_none member
    next => cases named
  · intro present
    obtain ⟨entry, found⟩ := Option.ne_none_iff_exists'.mp present
    exact mem_names_of_entry (mem_of_lookup found)

theorem entryAt_cases {path : List Name} (present : tree.entryAt path ≠ none) :
    tree.isDir path = true ∨ ∃ content, tree.fileAt path = some content := by
  cases found : tree.entryAt path with
  | none => exact absurd found present
  | some entry =>
      cases entry with
      | directory => exact Or.inl (by rw [isDir, found])
      | file content => exact Or.inr ⟨content, by rw [fileAt, found]⟩

theorem entryAt_ne_none_of_isDir {path : List Name} (directory : tree.isDir path = true) :
    tree.entryAt path ≠ none := by
  intro absent
  rw [isDir, absent] at directory
  cases directory

theorem entryAt_ne_none_of_fileAt {path : List Name} {content : Content}
    (stored : tree.fileAt path = some content) : tree.entryAt path ≠ none := by
  intro absent
  rw [fileAt, absent] at stored
  cases stored

/-- Whatever has a place has it in a directory. -/
def Rooted (tree : Tree Name Content) : Prop :=
  ∀ path name, tree.entryAt (path ++ [name]) ≠ none → tree.isDir path = true

theorem rooted_of_entries (directories : ∀ entry ∈ tree.entries, tree.isDir entry.1.dropLast = true) :
    tree.Rooted := by
  intro path name present
  obtain ⟨entry, found⟩ := Option.ne_none_iff_exists'.mp present
  rw [entryAt, if_neg (List.concat_ne_nil name path)] at found
  have parent := directories _ (mem_of_lookup found)
  rwa [List.dropLast_concat] at parent

theorem Rooted.above (rooted : tree.Rooted) {path : List Name} (directory : tree.isDir path = true)
    (place : List Name) (prefixed : place <+: path) : tree.isDir place = true := by
  obtain ⟨rest, rfl⟩ := prefixed
  induction rest using List.reverseRecOn with
  | nil => rwa [List.append_nil] at directory
  | append_singleton rest name inductionHypothesis =>
      rw [← List.append_assoc] at directory
      apply inductionHypothesis
      exact rooted (place ++ rest) name (entryAt_ne_none_of_isDir directory)

/-! ## Writing -/

section Writing

variable (tree)

/-- The table with this entry for the path. -/
def put (path : List Name) (entry : TreeEntry Content) : Tree Name Content where
  entries := (path, entry) :: tree.entries.filter fun old => decide (old.1 ≠ path)

/-- Create or replace the file of this name where the hops lead, if they lead to a directory. -/
def write (hops : List (Hop Name)) (name : Name) (content : Content) : Tree Name Content :=
  match tree.follow [] hops with
  | none => tree
  | some dir =>
      if tree.isDir (dir ++ [name]) then tree else tree.put (dir ++ [name]) (.file content)

end Writing

/-- Create the directories that are missing on the way down; a file on the way ends it. -/
def makeDirs (tree : Tree Name Content) (path : List Name) : List Name → Tree Name Content
  | [] => tree
  | name :: rest =>
      match tree.entryAt (path ++ [name]) with
      | some .directory => makeDirs tree (path ++ [name]) rest
      | some (.file _) => tree
      | none => makeDirs (tree.put (path ++ [name]) .directory) (path ++ [name]) rest

theorem entryAt_put_self {path : List Name} (notRoot : path ≠ []) (entry : TreeEntry Content) :
    (tree.put path entry).entryAt path = some entry := by
  rw [entryAt, if_neg notRoot, put, List.lookup_cons, beq_self_eq_true]

theorem entryAt_put_of_ne {path away : List Name} (different : away ≠ path)
    (entry : TreeEntry Content) : (tree.put path entry).entryAt away = tree.entryAt away := by
  unfold entryAt
  congr 1
  rw [put, List.lookup_cons, beq_false_of_ne different]
  simp only
  induction tree.entries with
  | nil => rfl
  | cons head rest inductionHypothesis =>
      by_cases same : head.1 = path
      · have unequal : (away == head.1) = false := beq_false_of_ne (same ▸ different)
        rw [List.filter_cons_of_neg (by simpa using same), inductionHypothesis, List.lookup_cons,
          unequal]
      · rw [List.filter_cons_of_pos (by simpa using same), List.lookup_cons, List.lookup_cons,
          inductionHypothesis]

theorem fileAt_put_of_ne {path away : List Name} (different : away ≠ path)
    (entry : TreeEntry Content) : (tree.put path entry).fileAt away = tree.fileAt away := by
  rw [fileAt, fileAt, entryAt_put_of_ne different]

theorem fileAt_put_self {path : List Name} (notRoot : path ≠ []) (content : Content) :
    (tree.put path (.file content)).fileAt path = some content := by
  rw [fileAt, entryAt_put_self notRoot]

/-- A file is found after a write as before, or it is the one written. -/
theorem fileAt_write {hops : List (Hop Name)} {name : Name} {content found : Content}
    {path : List Name} (stored : (tree.write hops name content).fileAt path = some found) :
    tree.fileAt path = some found ∨
      tree.follow [] hops = some (target [] hops) ∧ path = target [] hops ++ [name] ∧
        found = content := by
  unfold write at stored
  split at stored
  next => exact .inl stored
  next dir reached =>
    split at stored
    next => exact .inl stored
    next =>
      have place := (follow_eq_some_iff.mp reached).2
      by_cases here : path = dir ++ [name]
      · rw [here, fileAt_put_self (List.concat_ne_nil name dir)] at stored
        exact .inr ⟨place ▸ reached, place ▸ here, (Option.some.inj stored).symm⟩
      · rw [fileAt_put_of_ne here] at stored
        exact .inl stored

/-- A write changes nothing but the file it names. -/
theorem fileAt_write_of_ne {hops : List (Hop Name)} {name : Name} (content : Content)
    {path : List Name}
    (away : tree.follow [] hops = some (target [] hops) → path ≠ target [] hops ++ [name]) :
    (tree.write hops name content).fileAt path = tree.fileAt path := by
  unfold write
  split
  next => rfl
  next dir reached =>
    split
    next => rfl
    next =>
      have place := (follow_eq_some_iff.mp reached).2
      subst place
      exact fileAt_put_of_ne (away reached) _

@[simp]
theorem fileAt_makeDirs (path names away : List Name) :
    (tree.makeDirs path names).fileAt away = tree.fileAt away := by
  induction names generalizing tree path with
  | nil => rw [makeDirs]
  | cons name rest inductionHypothesis =>
      rw [makeDirs]
      split
      next => exact inductionHypothesis (path ++ [name])
      next => rfl
      next absent =>
        rw [inductionHypothesis]
        by_cases here : away = path ++ [name]
        · subst here
          rw [fileAt, fileAt, entryAt_put_self (List.concat_ne_nil name path), absent]
        · exact fileAt_put_of_ne here _

theorem isDir_put_of_ne {path away : List Name} (different : away ≠ path)
    (entry : TreeEntry Content) : (tree.put path entry).isDir away = tree.isDir away := by
  rw [isDir, isDir, entryAt_put_of_ne different]

theorem isDir_put_self {path : List Name} :
    (tree.put path .directory).isDir path = true := by
  by_cases root : path = []
  · subst root
    rfl
  · rw [isDir, entryAt_put_self root]

theorem isDir_put {path away : List Name} (directory : tree.isDir away = true) :
    (tree.put path .directory).isDir away = true := by
  by_cases here : away = path
  · rw [here]
    exact isDir_put_self
  · rwa [isDir_put_of_ne here]

/-- Where no file is in the way, the directories are all there afterwards. -/
theorem isDir_makeDirs {path names : List Name}
    (above : ∀ place, place <+: path → tree.isDir place = true)
    (free : ∀ place, place <+: path ++ names → tree.fileAt place = none) :
    ∀ place, place <+: path ++ names → (tree.makeDirs path names).isDir place = true := by
  induction names generalizing tree path with
  | nil =>
      intro place prefixed
      rw [makeDirs]
      exact above place (List.append_nil path ▸ prefixed)
  | cons name rest inductionHypothesis =>
      have nested : path ++ name :: rest = (path ++ [name]) ++ rest :=
        List.append_cons path name rest
      have here : path ++ [name] <+: path ++ name :: rest := by
        rw [nested]
        exact List.prefix_append _ rest
      rw [nested] at free ⊢
      rw [makeDirs]
      split
      next found =>
        apply inductionHypothesis ?_ free
        intro place prefixed
        rcases List.prefix_concat_iff.mp prefixed with rfl | higher
        · rw [isDir, found]
        · exact above place higher
      next content found =>
        have blocked := free (path ++ [name]) (List.prefix_append _ rest)
        rw [fileAt, found] at blocked
        cases blocked
      next absent =>
        apply inductionHypothesis
        · intro place prefixed
          rcases List.prefix_concat_iff.mp prefixed with rfl | higher
          · exact isDir_put_self
          · exact isDir_put (above place higher)
        · intro place prefixed
          by_cases same : place = path ++ [name]
          · subst same
            exact fileAt_of_isDir isDir_put_self
          · rw [fileAt_put_of_ne same]
            exact free place prefixed

/-- Making directories changes nothing off the way to them. -/
theorem entryAt_makeDirs_off {path names away : List Name} (off : ¬ away <+: path ++ names) :
    (tree.makeDirs path names).entryAt away = tree.entryAt away := by
  induction names generalizing tree path with
  | nil => rw [makeDirs]
  | cons name rest inductionHypothesis =>
      rw [List.append_cons] at off
      rw [makeDirs]
      split
      next => exact inductionHypothesis off
      next => rfl
      next =>
        rw [inductionHypothesis off, entryAt_put_of_ne]
        rintro rfl
        exact off (List.prefix_append _ rest)

theorem Rooted.put_directory (rooted : tree.Rooted) {path : List Name} {name : Name}
    (parent : tree.isDir path = true) : (tree.put (path ++ [name]) .directory).Rooted := by
  intro above last present
  by_cases here : above ++ [last] = path ++ [name]
  · rw [(List.append_inj' here rfl).1]
    exact isDir_put parent
  · rw [entryAt_put_of_ne here] at present
    exact isDir_put (rooted above last present)

theorem Rooted.makeDirs (rooted : tree.Rooted) {path : List Name} (names : List Name)
    (directory : tree.isDir path = true) : (tree.makeDirs path names).Rooted := by
  induction names generalizing tree path with
  | nil =>
      rw [Tree.makeDirs]
      exact rooted
  | cons name rest inductionHypothesis =>
      rw [Tree.makeDirs]
      split
      next found => exact inductionHypothesis rooted (by rw [isDir, found])
      next => exact rooted
      next => exact inductionHypothesis (rooted.put_directory directory) isDir_put_self

theorem Rooted.write (rooted : tree.Rooted) (hops : List (Hop Name)) (name : Name)
    (content : Content) : (tree.write hops name content).Rooted := by
  unfold Tree.write
  split
  next => exact rooted
  next dir reached =>
    split
    next => exact rooted
    next free =>
      intro above last present
      have parent : tree.isDir above = true := by
        by_cases here : above ++ [last] = dir ++ [name]
        · rw [(List.append_inj' here rfl).1]
          obtain ⟨directories, arrived⟩ := follow_eq_some_iff.mp reached
          exact directories dir (arrived ▸ target_mem_visits [] hops)
        · rw [entryAt_put_of_ne here] at present
          exact rooted above last present
      rw [isDir_put_of_ne]
      · exact parent
      · rintro rfl
        exact free parent

/-- A write that finds its directory, and no directory under its name, is carried out. -/
theorem fileAt_write_self {hops : List (Hop Name)} {name : Name} (content : Content)
    (reached : tree.follow [] hops = some (target [] hops))
    (free : tree.isDir (target [] hops ++ [name]) = false) :
    (tree.write hops name content).fileAt (target [] hops ++ [name]) = some content := by
  simp only [write, reached, free, Bool.false_eq_true, if_false]
  exact fileAt_put_self (List.concat_ne_nil name _) content

theorem isDir_of_isDir_write {hops : List (Hop Name)} {name : Name} {content : Content}
    {place : List Name} (directory : (tree.write hops name content).isDir place = true) :
    tree.isDir place = true := by
  unfold write at directory
  split at directory
  next => exact directory
  next dir _ =>
    split at directory
    next => exact directory
    next =>
      by_cases here : place = dir ++ [name]
      · rw [here, isDir, entryAt_put_self (List.concat_ne_nil name dir)] at directory
        cases directory
      · rwa [isDir_put_of_ne here] at directory

/-! ## Trees with given directories -/

/-- The directories and one file. -/
def built (dirs : List (List Name)) (path : List Name) (content : Content) : Tree Name Content where
  entries := dirs.map (fun dir => (dir, .directory)) ++ [(path, .file content)]

theorem lookup_directories {dirs : List (List Name)} {path : List Name} :
    (dirs.map fun dir => (dir, (.directory : TreeEntry Content))).lookup path =
      if path ∈ dirs then some .directory else none := by
  induction dirs with
  | nil => rfl
  | cons dir rest inductionHypothesis =>
      rw [List.map_cons, List.lookup_cons, inductionHypothesis]
      by_cases same : path = dir
      · simp [same]
      · simp [same, beq_false_of_ne same]

theorem isDir_built {dirs : List (List Name)} {path place : List Name} {content : Content} :
    (built dirs path content).isDir place = true ↔ place = [] ∨ place ∈ dirs := by
  unfold isDir entryAt
  by_cases root : place = []
  · simp [root]
  · rw [if_neg root, built, List.lookup_append, lookup_directories]
    by_cases listed : place ∈ dirs
    · rw [if_pos listed]
      simp [listed]
    · rw [if_neg listed, Option.none_or, List.lookup_cons]
      cases place == path with
      | true => simp [root, listed]
      | false => simp [root, listed]

theorem fileAt_built {dirs : List (List Name)} {path : List Name} {content : Content}
    (notRoot : path ≠ []) (free : path ∉ dirs) :
    (built dirs path content).fileAt path = some content := by
  rw [fileAt, entryAt, if_neg notRoot, built, List.lookup_append, lookup_directories, if_neg free]
  simp

end Tree

end KairosEngine.Library
