import Mathlib.Data.List.Dedup
import KairosEngine.Library.DirectoryTree
import KairosEngine.Library.StableSort
import KairosEngine.Swarm.Objects

/-!
# The `full/` directory of a node

The paths that addresses turn into, what a node holds, and the similarity index over it.  Names
are the bytes the file system keeps; a path is resolved as Unix does, and links are left out.
-/

namespace KairosEngine.Swarm

open KairosEngine.Library KairosEngine.Daemon

abbrev Path := List Bytes

abbrev Volume := Tree Bytes Bytes

/-! ## Paths -/

/-- `full_dir`, with the store root resolved to its directory. -/
def fullDir (root : Path) : Path := root ++ [utf8 "full".toList]

def component (part : Text) : Hop Bytes :=
  if part = [] ∨ part = ['.'] then .stay
  else if part = ['.', '.'] then .up
  else .down (utf8 part)

/-- The directory part of `full_dir(root).join(format!("{addr}.md"))`; an absolute address
replaces what it is joined to. -/
def objectHops (root : Path) (addr : Text) : List (Hop Bytes) :=
  let parts := ((addr.splitOn '/').dropLast).map component
  if addr.head? = some '/' then parts else (fullDir root).map .down ++ parts

def leaf (addr : Text) : Text := ((addr.splitOn '/').getLast?).getD []

def objectName (addr : Text) : Bytes := utf8 (leaf addr ++ ".md".toList)

def objectPath (root : Path) (addr : Text) : Path :=
  target [] (objectHops root addr) ++ [objectName addr]

/-- `fs::read` of the joined path: the file it opens and its bytes.  A path with a NUL is
refused before it reaches the system. -/
def readObject (root : Path) (volume : Volume) (addr : Text) : Option (Path × Bytes) :=
  if '\x00' ∈ addr then none
  else
    (volume.follow [] (objectHops root addr)).bind fun dir =>
      (volume.fileAt (dir ++ [objectName addr])).map fun bytes => (dir ++ [objectName addr], bytes)

section Paths

variable {root : Path} {addr : Text}

theorem fullDir_ne_nil : fullDir root ≠ [] := List.concat_ne_nil _ root

theorem splitOn_plain (plain : '/' ∉ addr) : addr.splitOn '/' = [addr] := by
  apply List.splitOnP_eq_singleton
  intro c membership
  exact beq_false_of_ne fun slash => plain (slash ▸ membership)

theorem objectHops_plain (plain : '/' ∉ addr) :
    objectHops root addr = (fullDir root).map .down := by
  have relative : addr.head? ≠ some '/' := fun absolute => plain (List.mem_of_head? absolute)
  rw [objectHops, splitOn_plain plain, if_neg relative]
  exact List.append_nil _

theorem leaf_plain (plain : '/' ∉ addr) : leaf addr = addr := by
  rw [leaf, splitOn_plain plain]
  rfl

/-- A file that is read is the one the path spells, whatever the volume. -/
theorem readObject_path {volume : Volume} {opened : Path × Bytes}
    (read : readObject root volume addr = some opened) :
    opened.1 = objectPath root addr ∧ volume.fileAt opened.1 = some opened.2 ∧
      ∀ place ∈ visits [] (objectHops root addr), volume.isDir place = true := by
  unfold readObject at read
  split at read
  next => cases read
  next =>
    obtain ⟨dir, reached, found⟩ := Option.bind_eq_some_iff.mp read
    obtain ⟨bytes, stored, rfl⟩ := Option.map_eq_some_iff.mp found
    obtain ⟨directories, rfl⟩ := Tree.follow_eq_some_iff.mp reached
    exact ⟨rfl, stored, directories⟩

end Paths

/-! ## What a node holds -/

def stripSuffix (pattern text : Text) : Option Text :=
  (stripPrefix pattern.reverse text.reverse).map List.reverse

/-- `read_dir` of `full/`. -/
def listing (root : Path) (volume : Volume) : List Bytes :=
  if (volume.follow [] ((fullDir root).map .down)).isSome then volume.names (fullDir root) else []

def objectAddr (name : Bytes) : Option Text := stripSuffix ".md".toList (fromUtf8Lossy name)

def haveAddrs (root : Path) (volume : Volume) : List Text :=
  ((listing root volume).filterMap objectAddr).dedup

/-- `sort` of strings is by their bytes. -/
def haveSet (root : Path) (volume : Volume) : Text :=
  ['\n'].intercalate
    (stableSort (fun first second => compare (utf8 first) (utf8 second)) (haveAddrs root volume))

@[simp]
theorem stripSuffix_append (text pattern : Text) :
    stripSuffix pattern (text ++ pattern) = some text := by
  have matched : pattern.reverse.isPrefixOf (pattern.reverse ++ text.reverse) = true :=
    List.isPrefixOf_iff_prefix.mpr (List.prefix_append _ _)
  rw [stripSuffix, stripPrefix, List.reverse_append, if_pos matched, List.drop_left,
    Option.map_some, List.reverse_reverse]

@[simp]
theorem objectAddr_utf8 (addr : Text) : objectAddr (utf8 (addr ++ ".md".toList)) = some addr := by
  rw [objectAddr, fromUtf8Lossy_utf8, stripSuffix_append]

/-- A file directly in a `full/` that can be reached is one the node says it has. -/
theorem mem_haveAddrs {root : Path} {volume : Volume} {addr : Text} {bytes : Bytes}
    (reached : ∀ place, place <+: fullDir root → volume.isDir place = true)
    (stored : volume.fileAt (fullDir root ++ [utf8 (addr ++ ".md".toList)]) = some bytes) :
    addr ∈ haveAddrs root volume := by
  have opened : volume.follow [] ((fullDir root).map .down) = some (fullDir root) := by
    apply Tree.follow_eq_some_iff.mpr
    constructor
    · intro place visited
      exact reached place (mem_visits_down.mp visited)
    · rw [target_down, List.nil_append]
  rw [haveAddrs, List.mem_dedup, List.mem_filterMap, listing, opened]
  exact ⟨_, Tree.mem_names stored, objectAddr_utf8 addr⟩

/-! ## The similarity index -/

/-- A C2 signature: four words of 64 bits. -/
structure Sig where
  words : List UInt64
  size : words.length = 4
  deriving DecidableEq

def countOnes (word : UInt64) : Nat := (List.range 64).countP word.toNat.testBit

def hamming (first second : Sig) : Nat :=
  ((first.words.zipWith (fun left right => countOnes (left ^^^ right)) second.words)).sum

def wordFromLe (bytes : Bytes) : UInt64 :=
  UInt64.ofNat (bytes.foldr (fun byte value => byte.toNat + 256 * value) 0)

def wordToLe (word : UInt64) : Bytes :=
  (List.range 8).map fun index => UInt8.ofNat (word.toNat / 256 ^ index)

def sigToHex (sig : Sig) : Text := hexEncode (sig.words.flatMap wordToLe)

section Similarity

variable (tables : Unicode)

def sigFromHex (hex : Text) : Option Sig :=
  (hexDecode (tables.trim hex)).bind fun bytes =>
    if bytes.length = 32 then
      some ⟨(List.range 4).map fun index => wordFromLe ((bytes.drop (8 * index)).take 8), by simp⟩
    else none

abbrev C2Index := List (Text × Sig)

def C2Index.insert (index : C2Index) (addr : Text) (sig : Sig) : C2Index :=
  if index.any fun entry => decide (entry.1 = addr) then
    index.map fun entry => if entry.1 = addr then (addr, sig) else entry
  else index ++ [(addr, sig)]

/-- The nearest entries first; equal distances by address. -/
def C2Index.findSimilar (index : C2Index) (query : Sig) (k : Nat) : List (Text × Nat) :=
  (stableSort
    (fun first second =>
      (compare first.2 second.2).then (compare (utf8 first.1) (utf8 second.1)))
    (index.map fun entry => (entry.1, hamming query entry.2))).take k

/-- The signature in the frontmatter of a file of `full/`. -/
def storedSig (root : Path) (volume : Volume) (name : Bytes) : Option Sig :=
  ((volume.fileAt (fullDir root ++ [name])).bind fromUtf8).bind fun text =>
    ((parseFm tables text).1.get "mem_c2").bind (sigFromHex tables)

def indexStore (root : Path) (volume : Volume) : C2Index :=
  (listing root volume).foldl
    (fun index name =>
      match objectAddr name, storedSig tables root volume name with
      | some addr, some sig => C2Index.insert index addr sig
      | _, _ => index) []

end Similarity

/-! ## Volumes with the same `full/` -/

/-- The directory `full/` is reached in both volumes or in neither, and is the same. -/
structure SameFull (root : Path) (first second : Volume) : Prop where
  reached : first.follow [] ((fullDir root).map .down) = second.follow [] ((fullDir root).map .down)
  below : first.below (fullDir root) = second.below (fullDir root)

namespace SameFull

variable {root : Path} {first second : Volume} (same : SameFull root first second)

include same

theorem listing : listing root first = listing root second := by
  rw [Swarm.listing, Swarm.listing, same.reached, Tree.names_below same.below]

theorem haveAddrs : haveAddrs root first = haveAddrs root second := by
  rw [Swarm.haveAddrs, Swarm.haveAddrs, same.listing]

theorem indexStore (tables : Unicode) :
    indexStore tables root first = indexStore tables root second := by
  have stored : storedSig tables root first = storedSig tables root second := by
    funext name
    rw [storedSig, storedSig,
      Tree.fileAt_below fullDir_ne_nil same.below (List.prefix_append _ [name])]
  rw [Swarm.indexStore, Swarm.indexStore, same.listing, stored]

end SameFull

end KairosEngine.Swarm
