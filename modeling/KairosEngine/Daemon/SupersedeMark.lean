import KairosEngine.Daemon.EpisodeOkf

/-!
# Marking a row of the registry file

`mark_superseded_registry` reads the file line by line, compares the row's own text with the victim
and writes every line back; the loader may have taken the text of a row from the manifest.
-/

namespace KairosEngine.Daemon

open KairosEngine.Library KairosEngine.Swarm

/-! ## The text of the file -/

/-- What `serde_json` makes of a line, as far as loader and marker look into it. -/
inductive JsonLine
  | scalar
  | object (fields : RowFields)
  deriving DecidableEq

/-- The calls of `serde_json` on the text of a line. -/
structure SerdeJson where
  fromStr : Text → Option JsonLine
  /-- What `to_string` writes for the row of a line once `lifecycle` is inserted. -/
  marked : Nat → Text → Text

namespace SerdeJson

/-- A row is written on one line, between braces, and read back with the mark. -/
def RoundTrips (serde : SerdeJson) (lc : Nat) : Prop :=
  ∀ line fields, serde.fromStr line = some (.object fields) →
    '\n' ∉ serde.marked lc line ∧
      (∃ inner, serde.marked lc line = '{' :: inner ++ ['}']) ∧
        serde.fromStr (serde.marked lc line) =
          some (.object (fields.insert "lifecycle" (.number lc)))

variable (serde : SerdeJson) (tables : Unicode)

def readLine (line : Text) : RegistryLine :=
  if tables.trim line = [] then .blank
  else
    match serde.fromStr (tables.trim line) with
    | none => .malformed
    | some .scalar => .scalar
    | some (.object fields) => .row (serde.fromStr line).isNone fields

/-- The lines of the file as `load_registry_report` reads them. -/
def readFile (file : Text) : List RegistryLine := (textLines file).map (serde.readLine tables)

/-- `mark_superseded_registry` on one line. -/
def markLine (victim : Text) (lc : Nat) (line : Text) : Option Text :=
  let t := tables.trim line
  if t = [] then none
  else
    match serde.fromStr t with
    | some (.object fields) =>
        some (if fields.str "text" = some victim then serde.marked lc t else t)
    | some .scalar => some t
    | none => some t

/-- `mark_superseded_registry` on the text of the file. -/
def markFile (victim : Text) (lc : Nat) (file : Text) : Text :=
  endLines ((textLines file).filterMap (serde.markLine tables victim lc))

variable {serde tables} {victim : Text} {lc : Nat}

/-! ## What is written is read as the marked lines -/

section Reading

variable (ascii : AsciiSpace tables)

include ascii

/-- A trimmed line is a line of its own. -/
theorem endedLines_trimmed {line : Text} (single : '\n' ∉ line) (trimmed : Trimmed tables line) :
    endedLines line = [line] := by
  have kept : line.getLast? ≠ some '\r' := by
    intro last
    have solid := trimmed '\r' (Or.inr last)
    cases solid.symm.trans (ascii.blank '\r' (by decide))
  rw [endedLines_single single, stripCarriage, if_neg kept]

theorem trimmed_braces {inner : Text} : Trimmed tables ('{' :: inner ++ ['}']) := by
  rintro c (first | last)
  · cases first
    exact ascii.visible '{' (by decide) (by decide)
  · rw [List.getLast?_concat] at last
    cases last
    exact ascii.visible '}' (by decide) (by decide)

/-- The marker's line is trimmed, has no line break and is read as the marked line. -/
theorem markLine_written (trips : serde.RoundTrips lc) {line written : Text}
    (single : '\n' ∉ line) (marks : serde.markLine tables victim lc line = some written) :
    '\n' ∉ written ∧ Trimmed tables written ∧
      (serde.readLine tables line).mark victim lc = some (serde.readLine tables written) := by
  have inside : '\n' ∉ tables.trim line := by
    intro member
    obtain ⟨before, behind, whole, -⟩ := tables.trim_margins line
    apply single
    rw [whole]
    exact List.mem_append_left _ (List.mem_append_right _ member)
  have settled : tables.trim (tables.trim line) = tables.trim line :=
    trim_of_trimmed (trim_trimmed line)
  unfold markLine at marks
  simp only at marks
  split at marks
  next => cases marks
  next some_ =>
    have same : serde.readLine tables (tables.trim line) =
        match serde.fromStr (tables.trim line) with
        | none => .malformed
        | some .scalar => .scalar
        | some (.object fields) => .row (serde.fromStr (tables.trim line)).isNone fields := by
      rw [readLine, settled, if_neg some_]
    rw [readLine, if_neg some_]
    split at marks
    next fields parsed =>
      simp only [parsed] at same ⊢
      split at marks
      next own =>
        cases marks
        obtain ⟨clean, ⟨inner, braces⟩, read⟩ := trips _ fields parsed
        have trimmed : Trimmed tables (serde.marked lc (tables.trim line)) := by
          rw [braces]
          exact trimmed_braces ascii
        refine ⟨clean, trimmed, ?_⟩
        have nonempty : serde.marked lc (tables.trim line) ≠ [] := by
          rw [braces]
          exact List.cons_ne_nil _ _
        rw [readLine, trim_of_trimmed trimmed, if_neg nonempty, read, RegistryLine.mark, if_pos own]
        rfl
      next other =>
        cases marks
        refine ⟨inside, trim_trimmed line, ?_⟩
        rw [same, RegistryLine.mark, if_neg other]
        rfl
    next parsed =>
      cases marks
      simp only [parsed] at same ⊢
      exact ⟨inside, trim_trimmed line, by rw [same]; rfl⟩
    next parsed =>
      cases marks
      simp only [parsed] at same ⊢
      exact ⟨inside, trim_trimmed line, by rw [same]; rfl⟩

omit ascii in
/-- A blank line is dropped on both levels. -/
theorem markLine_none {line : Text} (marks : serde.markLine tables victim lc line = none) :
    (serde.readLine tables line).mark victim lc = none := by
  unfold markLine at marks
  simp only at marks
  split at marks
  next blank => rw [readLine, if_pos blank]; rfl
  next =>
    split at marks
    next => cases marks
    next => cases marks
    next => cases marks

/-- The marked text holds the marked lines. -/
theorem readFile_markFile (trips : serde.RoundTrips lc) (file : Text) :
    serde.readFile tables (serde.markFile tables victim lc file) =
      markSupersededRegistry victim lc (serde.readFile tables file) := by
  have lines : ∀ lines : List Text, (∀ line ∈ lines, '\n' ∉ line) →
      ((lines.filterMap (serde.markLine tables victim lc)).flatMap endedLines).map
          (serde.readLine tables) =
        (lines.map (serde.readLine tables)).filterMap (RegistryLine.mark victim lc) := by
    intro lines single
    induction lines with
    | nil => rfl
    | cons line rest inductionHypothesis =>
        rw [List.forall_mem_cons] at single
        have others := inductionHypothesis single.2
        cases marks : serde.markLine tables victim lc line with
        | none =>
            rw [List.filterMap_cons_none marks, List.map_cons,
              List.filterMap_cons_none (markLine_none marks), others]
        | some written =>
            obtain ⟨clean, trimmed, read⟩ := markLine_written ascii trips single.1 marks
            rw [List.filterMap_cons_some marks, List.map_cons, List.filterMap_cons_some read,
              List.flatMap_cons, endedLines_trimmed ascii clean trimmed, List.singleton_append,
              List.map_cons, others]
  rw [readFile, markFile, textLines_endLines, lines _ fun line => newline_not_mem_textLines]
  rfl

end Reading

end SerdeJson

/-! ## What is loaded from the marked lines -/

section Loading

variable {tables : Unicode} {geo : RecallGeometry} {disk : EpisodeDisk} {victim : Text} {lc : Nat}

/-- The episode of a line whose own text is the victim has the mark. -/
def RegistryLine.superseded (victim : Text) (lc : Nat) (line : RegistryLine) (ep : Episode) :
    Episode :=
  if line.ownText = some victim then { ep with lifecycle := lc } else ep

theorem loadLine_mark (byte : lc < 256) (line : RegistryLine) :
    (line.mark victim lc).bind (loadLine tables geo disk) =
      (loadLine tables geo disk line).map (line.superseded victim lc) := by
  cases line with
  | blank => rfl
  | malformed => rfl
  | scalar => rfl
  | row foreign fields =>
      rw [RegistryLine.mark, Option.bind_some]
      split
      next own =>
        have all : (RegistryLine.row foreign fields).superseded victim lc =
            fun ep => { ep with lifecycle := lc } := funext fun _ => if_pos own
        rw [all]
        exact loadRow_insert_lifecycle fields byte
      next other =>
        have none : (RegistryLine.row foreign fields).superseded victim lc = id :=
          funext fun _ => if_neg other
        rw [none, Option.map_id]
        rfl

theorem loadRegistry_mark (byte : lc < 256) (lines : List RegistryLine) :
    loadRegistry tables geo disk (markSupersededRegistry victim lc lines) =
      lines.filterMap fun line =>
        (loadLine tables geo disk line).map (line.superseded victim lc) := by
  rw [loadRegistry, markSupersededRegistry, List.filterMap_filterMap]
  exact List.filterMap_congr fun line _ => loadLine_mark byte line

theorem filterMap_map_eq_iff {Line Loaded : Type} {load : Line → Option Loaded}
    {each : Line → Loaded → Loaded} {all : Loaded → Loaded} {lines : List Line} :
    (lines.filterMap fun line => (load line).map (each line)) =
        (lines.filterMap load).map all ↔
      ∀ line ∈ lines, ∀ loaded, load line = some loaded → each line loaded = all loaded := by
  induction lines with
  | nil => exact iff_of_true rfl nofun
  | cons line rest inductionHypothesis =>
      rw [List.forall_mem_cons, ← inductionHypothesis]
      cases loads : load line with
      | none =>
          rw [List.filterMap_cons_none loads, List.filterMap_cons, loads, Option.map_none]
          exact ⟨fun same => ⟨nofun, same⟩, fun both => both.2⟩
      | some loaded =>
          rw [List.filterMap_cons_some loads, List.filterMap_cons, loads, Option.map_some,
            List.map_cons]
          dsimp only
          rw [List.cons.injEq]
          refine and_congr_left fun _ => ⟨fun same other found => ?_, fun same => same loaded rfl⟩
          cases found
          exact same

/-- The two marks agree on an episode that has it already, or whose line and loaded text agree. -/
theorem superseded_eq_iff {line : RegistryLine} {ep : Episode} :
    line.superseded victim lc ep =
        (if ep.text = victim then { ep with lifecycle := lc } else ep) ↔
      (ep.lifecycle ≠ lc → (line.ownText = some victim ↔ ep.text = victim)) := by
  have changes : { ep with lifecycle := lc } = ep ↔ ep.lifecycle = lc := by
    constructor
    · intro same
      exact (congrArg Episode.lifecycle same).symm
    · rintro rfl
      rfl
  unfold RegistryLine.superseded
  by_cases own : line.ownText = some victim
  · by_cases loaded : ep.text = victim
    · simp [own, loaded]
    · rw [if_pos own, if_neg loaded, changes]
      simp [own, loaded]
  · by_cases loaded : ep.text = victim
    · rw [if_neg own, if_pos loaded, eq_comm, changes]
      simp [own, loaded]
    · simp [own, loaded]

end Loading

/-- After a rewrite of the file the same episodes are loaded in the same order, marked exactly where
the row's own text is the victim; that is where the loaded text is the victim, in exactly the files
whose rows to be marked agree on the two. -/
theorem markFile_loads (tables : Unicode) (ascii : AsciiSpace tables) (geo : RecallGeometry)
    (disk : EpisodeDisk) (serde : SerdeJson) (victim : Text) (lc : Nat) (byte : lc < 256)
    (trips : serde.RoundTrips lc) (file : Text) :
    loadRegistry tables geo disk
          (serde.readFile tables (serde.markFile tables victim lc file)) =
        (serde.readFile tables file).filterMap (fun line =>
          (loadLine tables geo disk line).map fun ep =>
            if line.ownText = some victim then { ep with lifecycle := lc } else ep) ∧
      (loadRegistry tables geo disk
            (serde.readFile tables (serde.markFile tables victim lc file)) =
          (loadRegistry tables geo disk (serde.readFile tables file)).map (fun ep =>
            if ep.text = victim then { ep with lifecycle := lc } else ep) ↔
        ∀ line ∈ serde.readFile tables file, ∀ ep, loadLine tables geo disk line = some ep →
          ep.lifecycle ≠ lc → (line.ownText = some victim ↔ ep.text = victim)) := by
  have marked : loadRegistry tables geo disk
      (serde.readFile tables (serde.markFile tables victim lc file)) =
      (serde.readFile tables file).filterMap fun line =>
        (loadLine tables geo disk line).map (line.superseded victim lc) := by
    rw [SerdeJson.readFile_markFile ascii trips, loadRegistry_mark byte]
  refine ⟨marked, ?_⟩
  rw [marked, loadRegistry, filterMap_map_eq_iff]
  constructor
  · intro same line member ep loads
    exact superseded_eq_iff.mp (same line member ep loads)
  · intro agree line member ep loads
    exact superseded_eq_iff.mpr (agree line member ep loads)

/-! A row without a text of its own; the manifest has its text. -/

def zeroSig : Text := List.replicate 64 '0'

def bareFields : RowFields := [("dir", .string "eps/a".toList), ("sig_bits", .string zeroSig)]

def bareRow : Text :=
  "\x7b\"dir\":\"eps/a\",\"sig_bits\":\"".toList ++ zeroSig ++ "\"\x7d".toList

def bareMarked : Text :=
  "\x7b\"dir\":\"eps/a\",\"lifecycle\":1,\"sig_bits\":\"".toList ++ zeroSig ++ "\"\x7d".toList

/-- `serde_json` on the row and on the row marked with 1. -/
def bareSerde : SerdeJson where
  fromStr line :=
    if line = bareRow then some (.object bareFields)
    else if line = bareMarked then some (.object (bareFields.insert "lifecycle" (.number 1)))
    else none
  marked _ _ := bareMarked

theorem bareSerde_roundTrips : bareSerde.RoundTrips 1 := by
  have written : '\n' ∉ bareMarked ∧ ∃ inner, bareMarked = '{' :: inner ++ ['}'] :=
    ⟨by decide +kernel, bareMarked.tail.dropLast, by decide +kernel⟩
  have read : bareSerde.fromStr bareMarked =
      some (.object (bareFields.insert "lifecycle" (.number 1))) := by decide +kernel
  intro line fields parsed
  refine ⟨written.1, written.2, read.trans ?_⟩
  simp only [bareSerde] at parsed
  split at parsed
  next => cases parsed; rfl
  next =>
    split at parsed
    next => cases parsed; decide +kernel
    next => cases parsed

def manifestDisk : EpisodeDisk where
  isDir _ := true
  windows := false
  epsRoot := none
  coldRoot := none
  moved := []
  epK _ := none
  epL5 _ := none
  l5Tag _ := none
  okf _ := none
  manifest := [(zeroSig, "My color is blue.".toList)]

/-- The row is loaded with the victim's text and stays active. -/
theorem markFile_misses_manifest :
    let load := fun file => loadRegistry .ascii .singleRow manifestDisk (bareSerde.readFile .ascii file)
    let marked := bareSerde.markFile .ascii "My color is blue.".toList 1 (endLines [bareRow])
    (load (endLines [bareRow])).map Episode.text = ["My color is blue.".toList] ∧
      (load marked).map Episode.lifecycle = [0] ∧
        load marked ≠ (load (endLines [bareRow])).map fun ep =>
          if ep.text = "My color is blue.".toList then { ep with lifecycle := 1 } else ep := by
  decide +kernel

theorem markFile_loads_bare :
    loadRegistry .ascii .singleRow manifestDisk (bareSerde.readFile .ascii
        (bareSerde.markFile .ascii "My color is blue.".toList 1 (endLines [bareRow]))) =
      (bareSerde.readFile .ascii (endLines [bareRow])).filterMap fun line =>
        (loadLine .ascii .singleRow manifestDisk line).map fun ep =>
          if line.ownText = some "My color is blue.".toList then { ep with lifecycle := 1 }
          else ep :=
  (markFile_loads .ascii AsciiSpace.of_ascii .singleRow manifestDisk bareSerde
    "My color is blue.".toList 1 (by decide) bareSerde_roundTrips (endLines [bareRow])).1

end KairosEngine.Daemon
