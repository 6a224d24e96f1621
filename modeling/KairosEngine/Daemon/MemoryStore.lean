import KairosEngine.Daemon.RegistryFile
import KairosEngine.Daemon.RecallL5
import KairosEngine.Library.Loop

/-!
# The three places a memory lives in

The registry loaded at boot, the episodes captured since, and the registry file.  A
captured episode is kept with the user text it was captured from: the turn lane stores
the delivered text attributed, the store verb and a merge store it bare, and the file
row of either has it bare.
-/

namespace KairosEngine.Daemon

open KairosEngine.Library

/-! ## Memories -/

def attributed (said : Text) : Text := "The user said: ".toList ++ said

/-- An episode with the user text it carries. -/
structure Memory where
  said : Text
  ep : Episode
  spelled : ep.text = said ∨ ep.text = attributed said
  deriving DecidableEq

/-- A loaded episode carries its own text. -/
def Memory.loaded (ep : Episode) : Memory := ⟨ep.text, ep, Or.inl rfl⟩

/-- What the recall path computes with, and the disk that does not change under it. -/
structure MemoryContext where
  tables : Unicode
  arith : Arithmetic
  geo : RecallGeometry
  disk : EpisodeDisk
  /-- `SP_MEM_CLASS_DELIVERY`. -/
  classMap : String → Option String

/-- The file is empty where `SP_RECALL_REGISTRY` is unset or names no file. -/
structure MemoryStore where
  registry : List Episode
  nightshift : List Memory
  file : List RegistryLine
  deriving DecidableEq

namespace MemoryStore

variable (store : MemoryStore)

/-- What every lane scans: the registry chained with the live episodes. -/
def memories : List Memory := store.registry.map Memory.loaded ++ store.nightshift

theorem mem_memories {memory : Memory} : memory ∈ store.memories ↔
    (∃ ep ∈ store.registry, Memory.loaded ep = memory) ∨ memory ∈ store.nightshift := by
  rw [memories, List.mem_append, List.mem_map]

/-- The text of any of these memories, as the rewrite of a removal compares it.  `rewrites`
says that the file was read and the new one written; a failure is only logged. -/
def remove (victims : List Text) (rewrites : Bool) : MemoryStore where
  registry := store.registry
  nightshift := store.nightshift.filter fun memory => !victims.contains memory.ep.text
  file := if rewrites then forgetRewrite victims store.file else store.file

end MemoryStore

/-! ## Captures -/

inductive CapturePath where
  /-- The inline capture of a statement turn. -/
  | nightshift
  /-- `capture_live_episode`. -/
  | liveEpisode
  deriving DecidableEq

def CapturePath.spell : CapturePath → Text → Text
  | .nightshift, said => attributed said
  | .liveEpisode, said => said

/-- A capture that went through, with what the encoder and the device gave it. -/
structure Capture where
  path : CapturePath
  said : Text
  said_nonempty : said ≠ []
  name : String
  dir : Text
  tokens : List Int
  sig : List Bool
  gk : List Ieee
  gkNg : Nat
  l5key : List Ieee
  /-- The class under `SP_MEM_CLASSIFY`. -/
  memClass : Option String
  /-- `SP_NIGHTSHIFT_PERSIST` with a registry path, and the append succeeded. -/
  persisted : Bool

namespace Capture

variable (capture : Capture)

def npos : Int := (capture.tokens.length : Int).bmod (2 ^ 32)

def source : CapturePath → String
  | .nightshift => "auto-capture"
  | .liveEpisode => "store verb"

/-- The appended row. -/
def row : RowFields :=
  [("name", .string capture.name.toList), ("dir", .string capture.dir),
    ("npos", .number capture.npos), ("topic", .string capture.said),
    ("text", .string capture.said), ("speaker", .string "user".toList),
    ("lifecycle", .number 0), ("src", .string (source capture.path).toList),
    ("sig_bits", .string (sigHex capture.sig))] ++
    (capture.memClass.map fun className => ("mem_class", JsonField.string className.toList)).toList

theorem row_text : capture.row.str "text" = some capture.said := by
  simp [row, RowFields.str, RowFields.get, List.lookup_cons, JsonField.asStr]

theorem row_sig : capture.row.str "sig_bits" = some (sigHex capture.sig) := by
  simp [row, RowFields.str, RowFields.get, List.lookup_cons, JsonField.asStr]

theorem row_dir : (capture.row.get "dir").orElse (fun _ => capture.row.get "ring2_path") =
    some (JsonField.string capture.dir) := by
  simp [row, RowFields.get, List.lookup_cons]

/-- The pushed episode. -/
def memory (classMap : String → Option String) : Memory where
  said := capture.said
  ep :=
    { name := capture.name
      dir := String.ofList capture.dir
      npos := capture.npos
      topic := capture.said.take 40
      text := capture.path.spell capture.said
      sig := capture.sig
      gk := capture.gk
      gkNg := capture.gkNg
      tokens := some capture.tokens
      l5key := capture.l5key
      policy := capture.memClass.map (MemPolicy.fromClass classMap)
      lifecycle := 0 }
  spelled := by
    cases capture.path with
    | nightshift => exact Or.inr rfl
    | liveEpisode => exact Or.inl rfl

end Capture

def MemoryStore.capture (classMap : String → Option String) (store : MemoryStore)
    (capture : Capture) : MemoryStore where
  registry := store.registry
  nightshift := store.nightshift ++ [capture.memory classMap]
  file := if capture.persisted then store.file ++ [.row false capture.row] else store.file

/-! ## Selections -/

section Selection

variable (ctx : MemoryContext) (store : MemoryStore)

/-- The first memory with the strictly best overlap; the first one is always taken. -/
def bestOverlap (query : Text) : Option (Ieee × Memory) :=
  store.memories.foldl
    (fun best memory =>
      let ov := tokenOverlap ctx.arith.single query memory.ep.text
      if best.all fun pair : Ieee × Memory => pair.1.lt ov then some (ov, memory) else best)
    none

def isForget (rawUser : Text) : Bool :=
  let lower := ctx.tables.toLowercase rawUser
  textContains "forget".toList lower || textContains "delete that".toList lower ||
    textContains "erase".toList lower

/-- `str::replace` of a nonempty pattern with a space, `fuel` characters at most. -/
def blankOut (pattern : Text) : Nat → Text → Text
  | 0, text => text
  | _ + 1, [] => []
  | fuel + 1, c :: rest =>
      if pattern.isPrefixOf (c :: rest) then
        ' ' :: blankOut pattern fuel ((c :: rest).drop pattern.length)
      else
        c :: blankOut pattern fuel rest

def forgetQuery (rawUser : Text) : Text :=
  ["forget", "please", "erase"].foldl
    (fun query word => blankOut word.toList query.length query)
    (ctx.tables.toLowercase (ctx.tables.trim rawUser))

/-- The memory a forget turn selects. -/
def forgetSelect (rawUser : Text) : Option Memory :=
  if isForget ctx rawUser then
    ((bestOverlap ctx store (forgetQuery ctx rawUser)).filter
      fun pair => Ieee.le (.finite (1 / 4)) pair.1).map Prod.snd
  else
    none

/-- The related memories of a new fact, each text once, best overlap first. -/
def decideCandidates (newName : String) (newText : Text) : List (Ieee × Memory) :=
  let related := store.memories.foldl
    (fun (found : List (Ieee × Memory)) memory =>
      if memory.ep.name = newName ∨ memory.ep.text = newText then
        found
      else
        let ov := tokenOverlap ctx.arith.single newText memory.ep.text
        if Ieee.le (ctx.arith.single.round (3 / 10)) ov &&
            !found.any fun pair => pair.2.ep.text = memory.ep.text then
          found ++ [(ov, memory)]
        else found)
    []
  (related.mergeSort fun left right => !left.1.lt right.1).take 5

/-- The number in a reply; a reply with NONE in it has none. -/
def replyNumber (reply : Text) : Option Nat :=
  let upper := reply.flatMap ctx.tables.upper
  if textContains "NONE".toList upper then
    none
  else
    let digits := (upper.dropWhile fun c : Char => !c.isDigit).takeWhile Char.isDigit
    let value := digits.foldl (fun value (c : Char) => value * 10 + (c.toNat - 48)) 0
    if digits ≠ [] ∧ value < 2 ^ 64 then some value else none

/-- The memory a DECIDE pass supersedes. -/
def decideSelect (newName : String) (newText reply : Text) : Option Memory :=
  let cands := decideCandidates ctx store newName newText
  (replyNumber ctx reply).bind fun n =>
    if 1 ≤ n ∧ n ≤ cands.length then (cands[n - 1]?).map Prod.snd else none

end Selection

/-! ## Removals -/

/-- A turn, or the pass behind one, that removes the memory it selects. -/
inductive Removal where
  | forget (rawUser : Text)
  | decide (newName : String) (newText reply : Text)

def Removal.selects (ctx : MemoryContext) (store : MemoryStore) : Removal → Option Memory
  | .forget rawUser => forgetSelect ctx store rawUser
  | .decide newName newText reply => decideSelect ctx store newName newText reply

/-- What can happen to the store; a merge drops both texts and captures the combined one. -/
inductive MemoryStep where
  | capture (capture : Capture)
  | remove (removal : Removal) (rewrites : Bool)
  | merge (dropA dropB : Text) (rewrites : Bool) (combined : Option Capture)
  | restart

def MemoryStep.serve (ctx : MemoryContext) : MemoryStep → MemoryStore → MemoryStore
  | .capture added, store => store.capture ctx.classMap added
  | .remove removal rewrites, store =>
      match removal.selects ctx store with
      | some memory => store.remove [memory.ep.text] rewrites
      | none => store
  | .merge dropA dropB rewrites combined, store =>
      let dropped := store.remove [dropA, dropB] rewrites
      match combined with
      | some added => dropped.capture ctx.classMap added
      | none => dropped
  | .restart, store =>
      { registry := loadRegistry ctx.tables ctx.geo ctx.disk store.file
        nightshift := []
        file := store.file }

end KairosEngine.Daemon
