import KairosEngine.Library.Search
import KairosEngine.Library.Utf8

/-!
# The decode buffer

`TokenDecodeBuffer` holds back what may still become a stop string and cuts at UTF-8 boundaries.
Neither is seen in what it gives out: it stops where a search over everything pushed so far would
have stopped.
-/

namespace KairosEngine.Daemon

open KairosEngine.Library

abbrev ByteString := List UInt8

/-- The length of the well-formed UTF-8 sequence the bytes begin with, if any. -/
def utf8Width (bytes : ByteString) : Option Nat :=
  let tail := tailIn 0x80 0xBF bytes
  match bytes.head? with
  | none => none
  | some lead =>
      if lead < 0x80 then some 1
      else if 0xC2 ≤ lead ∧ lead ≤ 0xDF then if tail 1 then some 2 else none
      else if 0xE0 ≤ lead ∧ lead ≤ 0xEF then
        let low := if lead = 0xE0 then 0xA0 else 0x80
        let high := if lead = 0xED then 0x9F else 0xBF
        if tailIn low high bytes 1 && tail 2 then some 3 else none
      else if 0xF0 ≤ lead ∧ lead ≤ 0xF4 then
        let low := if lead = 0xF0 then 0x90 else 0x80
        let high := if lead = 0xF4 then 0x8F else 0xBF
        if tailIn low high bytes 1 && tail 2 && tail 3 then some 4 else none
      else none

/-- `valid_up_to` of `str::from_utf8`; `inside` bytes of the sequence before are still to come. -/
def validFrom (inside : Nat) : ByteString → Nat
  | [] => 0
  | byte :: rest =>
      match inside with
      | left + 1 => validFrom left rest + 1
      | 0 =>
          match utf8Width (byte :: rest) with
          | some width => validFrom (width - 1) rest + 1
          | none => 0

def validUtf8UpTo (buf : ByteString) : Nat := validFrom 0 buf

theorem validFrom_le (inside : Nat) (bytes : ByteString) : validFrom inside bytes ≤ bytes.length := by
  induction bytes generalizing inside with
  | nil => exact Nat.le_refl 0
  | cons byte rest inductionHypothesis =>
      cases inside with
      | succ left => exact Nat.succ_le_succ (inductionHypothesis left)
      | zero =>
          simp only [validFrom]
          cases utf8Width (byte :: rest) with
          | none => exact Nat.zero_le _
          | some width => exact Nat.succ_le_succ (inductionHypothesis (width - 1))

/-- The first window that is the needle. -/
def memmem (haystack needle : ByteString) : Option Nat :=
  if needle.isEmpty then some 0
  else
    (List.range (haystack.length + 1 - needle.length)).find? fun index =>
      (haystack.drop index).take needle.length == needle

inductive PushResult
  | emit (bytes : ByteString)
  | stopped (bytes : ByteString)

structure TokenDecodeBuffer where
  buf : ByteString
  stopBytes : List ByteString
  hold : Nat

namespace TokenDecodeBuffer

def new (stops : List ByteString) : TokenDecodeBuffer where
  buf := []
  stopBytes := stops
  hold := (stops.map List.length).foldl max 0 - 1

/-- The stop strings are tried in list order. -/
def firstListed (stops : List ByteString) (text : ByteString) : Option Nat :=
  stops.findSome? (memmem text)

def push (buffer : TokenDecodeBuffer) (bytes : ByteString) : TokenDecodeBuffer × PushResult :=
  let buf := buffer.buf ++ bytes
  match firstListed buffer.stopBytes buf with
  | some pos => ({ buffer with buf := [] }, .stopped (buf.take pos))
  | none =>
      if buf.length ≤ buffer.hold then ({ buffer with buf }, .emit [])
      else
        let emitEnd := validUtf8UpTo (buf.take (buf.length - buffer.hold))
        if emitEnd = 0 then ({ buffer with buf }, .emit [])
        else ({ buffer with buf := buf.drop emitEnd }, .emit (buf.take emitEnd))

def flush (buffer : TokenDecodeBuffer) : ByteString := buffer.buf

/-- Everything given out for the chunks: up to the push that stopped, or with the flush. -/
def output (buffer : TokenDecodeBuffer) : List ByteString → ByteString
  | [] => buffer.flush
  | chunk :: rest =>
      match buffer.push chunk with
      | (_, .stopped bytes) => bytes
      | (after, .emit bytes) => bytes ++ after.output rest

variable {stops : List ByteString} {stop text seen : ByteString} {pos given : Nat}

/-! ## Searching -/

theorem window_eq_iff (index : Nat) :
    ((text.drop index).take stop.length == stop) = true ↔ OccursAt stop text index := by
  rw [beq_iff_eq, OccursAt, List.prefix_iff_eq_take, eq_comm]

theorem memmem_eq_some (nonempty : stop ≠ []) :
    memmem text stop = some pos ↔
      OccursAt stop text pos ∧ ∀ before < pos, ¬OccursAt stop text before := by
  have kept : stop.isEmpty = false := by
    rw [List.isEmpty_eq_false_iff]
    exact nonempty
  simp only [memmem, kept, Bool.false_eq_true, if_false, List.find?_range_eq_some,
    window_eq_iff, List.mem_range, Bool.not_eq_true', ← Bool.not_eq_true]
  constructor
  · rintro ⟨occurs, _, first⟩
    exact ⟨occurs, first⟩
  · rintro ⟨occurs, first⟩
    have inside := occurs.inside nonempty
    exact ⟨occurs, by omega, first⟩

theorem memmem_eq_none (nonempty : stop ≠ []) :
    memmem text stop = none ↔ ∀ pos, ¬OccursAt stop text pos := by
  have kept : stop.isEmpty = false := by
    rw [List.isEmpty_eq_false_iff]
    exact nonempty
  simp only [memmem, kept, Bool.false_eq_true, if_false, List.find?_range_eq_none,
    Bool.not_eq_true', ← Bool.not_eq_true, window_eq_iff]
  constructor
  · intro none pos occurs
    have inside := occurs.inside nonempty
    exact none pos (by omega) occurs
  · intro none pos _
    exact none pos

/-- A front in which the stop string does not begin may be cut off. -/
theorem memmem_drop (nonempty : stop ≠ [])
    (quiet : ∀ before < given, ¬OccursAt stop text before) :
    memmem text stop = (memmem (text.drop given) stop).map (given + ·) := by
  cases found : memmem (text.drop given) stop with
  | none =>
      rw [memmem_eq_none nonempty] at found
      rw [Option.map_none, memmem_eq_none nonempty]
      intro pos occurs
      by_cases early : pos < given
      · exact quiet pos early occurs
      · apply found (pos - given)
        rw [occursAt_drop, Nat.add_sub_cancel' (Nat.le_of_not_lt early)]
        exact occurs
  | some pos =>
      rw [memmem_eq_some nonempty, occursAt_drop] at found
      rw [Option.map_some, memmem_eq_some nonempty]
      refine ⟨found.1, fun before earlier occurs => ?_⟩
      by_cases early : before < given
      · exact quiet before early occurs
      · apply found.2 (before - given) (by omega)
        rw [occursAt_drop, Nat.add_sub_cancel' (Nat.le_of_not_lt early)]
        exact occurs

theorem firstListed_eq_none (nonempty : ∀ stop ∈ stops, stop ≠ []) :
    firstListed stops text = none ↔ ∀ stop ∈ stops, ∀ pos, ¬OccursAt stop text pos := by
  rw [firstListed, List.findSome?_eq_none_iff]
  exact forall₂_congr fun stop member => memmem_eq_none (nonempty stop member)

theorem firstListed_occurs (nonempty : ∀ stop ∈ stops, stop ≠ [])
    (found : firstListed stops text = some pos) : ∃ stop ∈ stops, OccursAt stop text pos := by
  obtain ⟨stop, member, found⟩ := List.exists_of_findSome?_eq_some found
  exact ⟨stop, member, ((memmem_eq_some (nonempty stop member)).mp found).1⟩

theorem firstListed_drop (nonempty : ∀ stop ∈ stops, stop ≠ [])
    (quiet : ∀ stop ∈ stops, ∀ before < given, ¬OccursAt stop text before) :
    firstListed stops text = (firstListed stops (text.drop given)).map (given + ·) := by
  induction stops with
  | nil => rfl
  | cons stop rest inductionHypothesis =>
      have later := inductionHypothesis
        (fun other member => nonempty other (List.mem_cons_of_mem _ member))
        (fun other member => quiet other (List.mem_cons_of_mem _ member))
      have here := memmem_drop (nonempty stop List.mem_cons_self) (quiet stop List.mem_cons_self)
      simp only [firstListed, List.findSome?_cons] at later ⊢
      rw [here]
      cases memmem (text.drop given) stop with
      | none => exact later
      | some pos => rfl

/-! ## The buffer against a search over everything pushed -/

/-- Search everything pushed so far with every chunk, and give nothing out before the end. -/
def scan (stops : List ByteString) (seen : ByteString) : List ByteString → ByteString
  | [] => seen
  | chunk :: rest =>
      match firstListed stops (seen ++ chunk) with
      | some pos => (seen ++ chunk).take pos
      | none => scan stops (seen ++ chunk) rest

/-- The buffer holds what has been pushed and not given out, and no stop string begins in what has
been given out. -/
structure Holds (buffer : TokenDecodeBuffer) (seen : ByteString) (given : Nat) : Prop where
  buf : buffer.buf = seen.drop given
  within : given ≤ seen.length
  room : given = 0 ∨ given + buffer.hold ≤ seen.length
  fits : ∀ stop ∈ buffer.stopBytes, stop ≠ [] ∧ stop.length ≤ buffer.hold + 1
  quiet : ∀ stop ∈ buffer.stopBytes, ∀ pos, ¬OccursAt stop seen pos

variable {buffer : TokenDecodeBuffer} {chunk : ByteString}

theorem Holds.buf_append (holds : buffer.Holds seen given) (chunk : ByteString) :
    buffer.buf ++ chunk = (seen ++ chunk).drop given := by
  rw [holds.buf, List.drop_append_of_le_length holds.within]

/-- A stop string that a chunk completes does not begin in what has been given out. -/
theorem Holds.behind (holds : buffer.Holds seen given) (chunk : ByteString) :
    ∀ stop ∈ buffer.stopBytes, ∀ before < given, ¬OccursAt stop (seen ++ chunk) before := by
  intro stop member before early occurs
  obtain ⟨_, fits⟩ := holds.fits stop member
  rcases holds.room with none | room
  · omega
  · exact holds.quiet stop member before (occurs.of_append (by omega))

theorem Holds.firstListed_append (holds : buffer.Holds seen given) (chunk : ByteString) :
    firstListed buffer.stopBytes (seen ++ chunk) =
      (firstListed buffer.stopBytes (buffer.buf ++ chunk)).map (given + ·) := by
  rw [holds.buf_append]
  exact firstListed_drop (fun stop member => (holds.fits stop member).1) (holds.behind chunk)

/-- A push that does not stop gives out a front of the buffer and holds back the rest. -/
theorem Holds.push_emit (holds : buffer.Holds seen given)
    (none : firstListed buffer.stopBytes (buffer.buf ++ chunk) = none) :
    ∃ after bytes more, buffer.push chunk = (after, .emit bytes) ∧
      after.stopBytes = buffer.stopBytes ∧ after.Holds (seen ++ chunk) (given + more) ∧
        bytes = ((seen ++ chunk).drop given).take more := by
  have absent : firstListed buffer.stopBytes (seen ++ chunk) = Option.none := by
    rw [holds.firstListed_append, none]
    rfl
  have quiet := (firstListed_eq_none fun stop member => (holds.fits stop member).1).mp absent
  have longer : seen.length ≤ (seen ++ chunk).length := by
    rw [List.length_append]
    exact Nat.le_add_right _ _
  have nothing : Holds { buffer with buf := buffer.buf ++ chunk } (seen ++ chunk) (given + 0) :=
    ⟨holds.buf_append chunk, Nat.le_trans holds.within longer,
      holds.room.imp id fun room => Nat.le_trans room longer, holds.fits, quiet⟩
  simp only [push, none]
  by_cases short : (buffer.buf ++ chunk).length ≤ buffer.hold
  · rw [if_pos short]
    exact ⟨_, _, 0, rfl, rfl, nothing, rfl⟩
  · rw [if_neg short]
    have cut := validFrom_le 0 ((buffer.buf ++ chunk).take ((buffer.buf ++ chunk).length -
      buffer.hold))
    rw [← validUtf8UpTo] at cut
    generalize validUtf8UpTo ((buffer.buf ++ chunk).take ((buffer.buf ++ chunk).length -
      buffer.hold)) = emitEnd at cut
    by_cases stuck : emitEnd = 0
    · rw [if_pos stuck]
      exact ⟨_, _, 0, rfl, rfl, nothing, rfl⟩
    · rw [if_neg stuck]
      have total : (buffer.buf ++ chunk).length = (seen ++ chunk).length - given := by
        rw [holds.buf_append, List.length_drop]
      have inside := Nat.le_trans holds.within longer
      rw [List.length_take] at cut
      have room : given + emitEnd + buffer.hold ≤ (seen ++ chunk).length := by omega
      refine ⟨_, _, emitEnd, rfl, rfl, ⟨?_, by omega, Or.inr room, holds.fits, quiet⟩, ?_⟩
      · rw [holds.buf_append, List.drop_drop]
      · rw [holds.buf_append]

/-- What has been given out and what the buffer still gives out are what the search gives. -/
theorem Holds.output_eq_scan (holds : buffer.Holds seen given) (chunks : List ByteString) :
    seen.take given ++ buffer.output chunks = scan buffer.stopBytes seen chunks := by
  induction chunks generalizing buffer seen given with
  | nil =>
      rw [output, flush, holds.buf, scan, List.take_append_drop]
  | cons chunk rest inductionHypothesis =>
      have front : (seen ++ chunk).take given = seen.take given :=
        List.take_append_of_le_length holds.within
      have found := holds.firstListed_append chunk
      rw [scan, found]
      cases here : firstListed buffer.stopBytes (buffer.buf ++ chunk) with
      | some pos =>
          rw [output, push, here, Option.map_some]
          simp only
          rw [holds.buf_append, List.take_add, front]
      | none =>
          obtain ⟨after, bytes, more, pushed, stops, held, bytes_eq⟩ := holds.push_emit here
          rw [output, pushed, Option.map_none]
          simp only
          rw [← stops, ← inductionHypothesis held, List.take_add, front, bytes_eq,
            List.append_assoc]

theorem le_foldl_max (lengths : List Nat) (start : Nat) :
    start ≤ lengths.foldl max start ∧ ∀ length ∈ lengths, length ≤ lengths.foldl max start := by
  induction lengths generalizing start with
  | nil => exact ⟨Nat.le_refl _, nofun⟩
  | cons head rest inductionHypothesis =>
      obtain ⟨above, each⟩ := inductionHypothesis (max start head)
      refine ⟨Nat.le_trans (Nat.le_max_left _ _) above, fun length member => ?_⟩
      rcases List.mem_cons.mp member with rfl | later
      · exact Nat.le_trans (Nat.le_max_right _ _) above
      · exact each length later

theorem holds_new (nonempty : ∀ stop ∈ stops, stop ≠ []) : (new stops).Holds [] 0 := by
  refine ⟨rfl, Nat.le_refl _, Or.inl rfl, fun stop member => ⟨nonempty stop member, ?_⟩,
    fun stop member pos occurs => ?_⟩
  · have longest := (le_foldl_max (stops.map List.length) 0).2 stop.length
      (List.mem_map_of_mem member)
    simp only [new]
    omega
  · have inside := occurs.inside (nonempty stop member)
    have long := List.length_pos_iff.mpr (nonempty stop member)
    rw [List.length_nil] at inside
    omega

/-- The buffer gives out what a search over everything pushed gives, whatever it holds back. -/
theorem output_new (nonempty : ∀ stop ∈ stops, stop ≠ []) (chunks : List ByteString) :
    (new stops).output chunks = scan stops [] chunks :=
  (holds_new nonempty).output_eq_scan chunks

/-! ## When the search stops at the right byte -/

/-- At the push that completes the first stop string, the one listed first among those complete by
then has none before it in the whole input. -/
def FirstListedIsEarliest (stops : List ByteString) (seen : ByteString) (chunks : List ByteString) :
    Prop :=
  ∀ front chunk rest pos, chunks = front ++ chunk :: rest →
    firstListed stops (seen ++ front.flatten) = none →
      firstListed stops (seen ++ (front.flatten ++ chunk)) = some pos →
        ∀ stop ∈ stops, ∀ before < pos, ¬OccursAt stop (seen ++ chunks.flatten) before

/-- The first chunk apart, the condition is one on the later chunks. -/
theorem firstListedIsEarliest_cons {chunk : ByteString} {rest : List ByteString} :
    FirstListedIsEarliest stops seen (chunk :: rest) ↔
      (firstListed stops seen = none → ∀ pos, firstListed stops (seen ++ chunk) = some pos →
        ∀ stop ∈ stops, ∀ before < pos, ¬OccursAt stop (seen ++ chunk ++ rest.flatten) before) ∧
        FirstListedIsEarliest stops (seen ++ chunk) rest := by
  constructor
  · intro all
    constructor
    · intro none pos there
      have here := all [] chunk rest pos rfl
      rw [List.flatten_nil, List.append_nil, List.nil_append, List.flatten_cons,
        ← List.append_assoc] at here
      exact here none there
    · intro front next tail pos split none there
      subst split
      have here := all (chunk :: front) next tail pos rfl
      rw [List.flatten_cons, List.flatten_cons, List.append_assoc chunk,
        ← List.append_assoc seen chunk front.flatten,
        ← List.append_assoc seen chunk (front.flatten ++ next), ← List.append_assoc seen chunk] at here
      exact here none there
  · rintro ⟨first, later⟩ front next tail pos split none there
    cases front with
    | nil =>
        rw [List.nil_append, List.cons.injEq] at split
        obtain ⟨rfl, rfl⟩ := split
        rw [List.flatten_nil, List.append_nil] at none
        rw [List.flatten_nil, List.nil_append] at there
        rw [List.flatten_cons, ← List.append_assoc]
        exact first none pos there
    | cons head front =>
        rw [List.cons_append, List.cons.injEq] at split
        obtain ⟨rfl, rfl⟩ := split
        rw [List.flatten_cons, ← List.append_assoc] at none
        rw [List.flatten_cons, List.append_assoc, ← List.append_assoc seen] at there
        rw [List.flatten_cons, ← List.append_assoc]
        exact later front next tail pos rfl none there

theorem scan_eq_truncateAt_iff (nonempty : ∀ stop ∈ stops, stop ≠ [])
    (quiet : firstListed stops seen = none) (chunks : List ByteString) :
    scan stops seen chunks = truncateAt stops (seen ++ chunks.flatten) ↔
      FirstListedIsEarliest stops seen chunks := by
  induction chunks generalizing seen with
  | nil =>
      have absent := (earliest_eq_none nonempty).mpr ((firstListed_eq_none nonempty).mp quiet)
      rw [List.flatten_nil, List.append_nil, scan, truncateAt, absent]
      refine iff_of_true rfl fun front chunk rest pos split => ?_
      simp at split
  | cons chunk rest inductionHypothesis =>
      rw [List.flatten_cons, ← List.append_assoc, firstListedIsEarliest_cons]
      cases found : firstListed stops (seen ++ chunk) with
      | some pos =>
          obtain ⟨stop, member, occurs⟩ := firstListed_occurs nonempty found
          have inside := occurs.inside (nonempty stop member)
          have whole := occurs.append (nonempty stop member) rest.flatten
          have cut := take_eq_truncateAt_iff nonempty member whole
          rw [List.take_append_of_le_length (by omega)] at cut
          -- nothing is scanned behind the chunk that completes a stop string
          have stopped : FirstListedIsEarliest stops (seen ++ chunk) rest := by
            intro front next tail place split none
            have again := occurs.append (nonempty stop member) front.flatten
            exact absurd again ((firstListed_eq_none nonempty).mp none stop member pos)
          rw [scan, found]
          simp only [cut]
          constructor
          · intro first
            refine ⟨fun _ place there => ?_, stopped⟩
            obtain rfl := Option.some.inj there
            exact first
          · rintro ⟨first, _⟩
            exact first quiet pos rfl
      | none =>
          rw [scan, found]
          simp only
          rw [inductionHypothesis found]
          constructor
          · intro later
            refine ⟨fun _ place there => ?_, later⟩
            cases there
          · rintro ⟨_, later⟩
            exact later

/-- The buffer truncates the input before the earliest stop string, however it was split into
chunks, exactly where the stop string listed first among those that are complete is the earliest. -/
theorem output_eq_truncateAt_iff (nonempty : ∀ stop ∈ stops, stop ≠ [])
    (chunks : List ByteString) :
    (new stops).output chunks = truncateAt stops chunks.flatten ↔
      FirstListedIsEarliest stops [] chunks := by
  have none : firstListed stops [] = none :=
    (firstListed_eq_none nonempty).mpr (holds_new nonempty).quiet
  rw [output_new nonempty]
  exact scan_eq_truncateAt_iff nonempty none chunks

/-- `b` is listed first, but `a` comes first. -/
theorem output_passes_stop :
    (new [[98], [97]]).output [[97, 98]] ≠ truncateAt [[98], [97]] [97, 98] := by decide

/-- Pushed byte by byte the same input stops at the right place. -/
theorem output_eq_truncateAt_bytes :
    (new [[98], [97]]).output [[97], [98]] = truncateAt [[98], [97]] [[97], [98]].flatten ↔
      FirstListedIsEarliest [[98], [97]] [] [[97], [98]] :=
  output_eq_truncateAt_iff (by decide) [[97], [98]]

end TokenDecodeBuffer

end KairosEngine.Daemon
