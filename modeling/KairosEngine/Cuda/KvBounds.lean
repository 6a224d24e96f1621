import KairosEngine.Cuda.KvCalls

/-!
# The buffer indices of the KV calls

`dseq` and every full cache have `Pmax` entries, a ring has `ringW` slots and a journal
`Jmax` rows.  Each call is listed with every index it uses, kernels and copies alike.
-/

namespace KairosEngine.Cuda

open KairosEngine.Library

universe u

/-- A geometry as `gemma4_kv_open` leaves it. -/
structure OpenGeometry extends Geometry where
  pmax_pos : 0 < Pmax
  ring_le : ringW ≤ Pmax
  journal_pos : 1 ≤ Jmax

/-- The clamps of `gemma4_kv_open`; `Pmax` is the size after the auto-fit. -/
def gemma4KvOpen (model : Geometry) (Pmax ringW Jmax : Int) : Option OpenGeometry :=
  if inside : 0 < Pmax then
    let rw := if ringW < 0 ∨ Pmax < ringW then 0 else ringW
    let jm := if Jmax < 1 then 1 else Jmax
    some {
      model with
      Pmax := Pmax.toNat
      ringW := rw.toNat
      Jmax := jm.toNat
      pmax_pos := by omega
      ring_le := by
        show rw.toNat ≤ Pmax.toNat
        simp only [rw]
        split <;> omega
      journal_pos := by
        show 1 ≤ jm.toNat
        simp only [jm]
        split <;> omega }
  else
    none

/-- Every such geometry is one that `gemma4_kv_open` accepts as it stands. -/
theorem gemma4KvOpen_self (geometry : OpenGeometry) :
    gemma4KvOpen geometry.toGeometry geometry.Pmax geometry.ringW geometry.Jmax =
      some geometry := by
  have pmax_pos := geometry.pmax_pos
  have ring_le := geometry.ring_le
  have journal_pos := geometry.journal_pos
  unfold gemma4KvOpen
  rw [dif_pos (by omega)]
  simp only [if_neg (show ¬ ((geometry.ringW : Int) < 0 ∨
      (geometry.Pmax : Int) < geometry.ringW) by omega),
    if_neg (show ¬ (geometry.Jmax : Int) < 1 by omega), Int.toNat_natCast]

inductive KvIndex where
  | token (i : Nat)
  | fullSlot (slot : Nat)
  | ringSlot (slot : Nat)
  | journalRow (j : Int)
  deriving DecidableEq, Repr

def KvIndex.InBounds (geometry : Geometry) : KvIndex → Prop
  | .token i => i < geometry.Pmax
  | .fullSlot slot => slot < geometry.Pmax
  | .ringSlot slot => slot < geometry.ringW
  | .journalRow j => 0 ≤ j ∧ j < geometry.Jmax

namespace Geometry

variable (geometry : Geometry)

/-- The index of a position in a layer's cache. -/
def slotIndex (layer pos : Nat) : KvIndex :=
  if geometry.ringed layer then .ringSlot (geometry.slotOf layer pos)
  else .fullSlot (geometry.slotOf layer pos)

/-- The journal row of a position, for ring layers. -/
def journalIndex (commitPos layer pos : Nat) : List KvIndex :=
  if geometry.ringed layer then [.journalRow ((pos : Int) - commitPos)] else []

end Geometry

section Indices

variable {Row : Type u} (geometry : Geometry) (widths : RowWidths)

/-- One forward step at the live position; `head` runs the argmax. -/
def stepIndices (head : Bool) (session : KvSession Row) : List KvIndex :=
  let pos := session.dposHost
  .token pos ::
    (List.range geometry.NL).flatMap (fun layer =>
      (if layer < geometry.kvfs then
        geometry.slotIndex layer pos :: geometry.journalIndex session.commitPos layer pos
      else []) ++ (geometry.window layer pos).map (geometry.slotIndex layer)) ++
    if head then [.token (pos + 1)] else []

/-- A loop of steps: `headAt` says with how many steps to go the head runs, `host` what the
host copies around a step. -/
def stepsIndices (headAt : Nat → Bool) (host : Nat → List KvIndex) :
    List (Minted Row) → KvSession Row → List KvIndex
  | [], _ => []
  | row :: rest, session =>
      host session.dposHost ++
        stepIndices geometry (headAt rest.length) (slideJournal geometry session) ++
        match stepAndAdvance geometry row session with
        | none => []
        | some next => stepsIndices headAt host rest next

def prefillIndices (rows : List (Minted Row)) (session : KvSession Row) : List KvIndex :=
  (List.range rows.length).map (fun i => .token (session.dposHost + i)) ++
    stepsIndices geometry (fun left => left == 0) (fun _ => []) rows session

/-- The positions of the prefix tail that a suffix batch gathers from a ring. -/
def prefixTail (P : Nat) : List Nat :=
  let pre := if 0 < P ∧ 0 < geometry.ringW then min (min P (geometry.SW - 1)) geometry.ringW else 0
  List.range' (P - pre) pre

/-- Whether the attention of a batch reads a layer's resident cache. -/
def readsResident (layer P : Nat) : Bool :=
  !geometry.ringed layer &&
    (decide (0 < P) || !(decide (0 < geometry.ringW) || widths.kvFp16 || widths.kvFp16G))

def batchIndices (count P : Nat) : List KvIndex :=
  (List.range count).map (fun j => .token (P + j)) ++
    (List.range geometry.NL).flatMap fun layer =>
      (if layer < geometry.kvfs then
        let tail := if geometry.ringed layer then prefixTail geometry P else []
        let skipped := if geometry.ringed layer then count - geometry.ringW else 0
        (tail ++ List.range' (P + skipped) (count - skipped)).map (geometry.slotIndex layer)
      else []) ++
      if readsResident geometry widths layer P then
        (List.range count).flatMap fun j =>
          (geometry.window layer (P + j)).map (geometry.slotIndex layer)
      else []

def piecesIndices : List (List (Minted Row)) → Nat → List KvIndex
  | [], _ => []
  | piece :: rest, off =>
      batchIndices geometry widths piece.length off ++ piecesIndices rest (off + piece.length)

/-- The seam prefills one token at a time, so every step runs the head. -/
def injectIndices (scaled : Bool) (rows : List (Minted Row)) (session : KvSession Row) :
    List KvIndex :=
  stepsIndices geometry (fun _ => true) (fun pos => [.token pos]) rows session ++
    if scaled then
      geometry.owners.flatMap fun layer =>
        (List.range' session.dposHost rows.length).map (geometry.slotIndex layer)
    else []

/-- Slots of consecutive positions with their journal rows, in every owner. -/
def journaledIndices (commitPos start count : Nat) : List KvIndex :=
  geometry.owners.flatMap fun layer =>
    (List.range' start count).flatMap fun pos =>
      geometry.slotIndex layer pos :: geometry.journalIndex commitPos layer pos

/-- A rewind moves rows only in ring mode and only in ring layers. -/
def rewindIndices (delta : Nat) (session : KvSession Row) : List KvIndex :=
  if 0 < geometry.ringW then
    (geometry.owners.filter geometry.ringed).flatMap fun layer =>
      (List.range' (session.dposHost - delta) delta).flatMap fun pos =>
        geometry.slotIndex layer pos :: geometry.journalIndex session.commitPos layer pos
  else []

def restoreIndices (P : Nat) : List KvIndex :=
  geometry.owners.flatMap fun layer =>
    (List.range (prefixSlots geometry layer P)).map (geometry.slotIndex layer)

/-- Every index a successful call uses. -/
def SessionCall.indices : SessionCall Row → KvSession Row → List KvIndex
  | .prefill rows, session => prefillIndices geometry rows session
  | .prefillBatched _ chunk rows, _ =>
      if chunk = 0 ∨ rows.length ≤ chunk then batchIndices geometry widths rows.length 0
      else piecesIndices geometry widths (pieces chunk rows.length rows) 0
  | .prefillBatchedFrom _ rows P, _ => batchIndices geometry widths rows.length P
  | .decode rows, session =>
      stepsIndices geometry (fun _ => true) (fun pos => [.token (pos + 1)]) rows session
  | .decodeLogits row, session =>
      stepsIndices geometry (fun _ => true) (fun pos => [.token pos]) [row] session
  | .decodeBatch rows, session =>
      stepsIndices geometry (fun _ => true) (fun pos => [.token pos]) rows session
  | .injectTokens scale rows, session => injectIndices geometry scale.isSome rows session
  | .replay rows, session =>
      journaledIndices geometry session.commitPos session.dposHost rows.length
  | .readGlobalQ _, session =>
      .token session.dposHost :: stepIndices geometry false (slideJournal geometry session)
  | .rewind delta, session => rewindIndices geometry delta.toNat session
  | .commit, _ => []
  | .shear _, _ => []
  | .restorePrefix saved, _ => restoreIndices geometry saved.P
  | .reset, _ => []

/-- A head step needs a position beyond its own, and a rewind a journal that still has a row
for every position it pops. -/
def SessionCall.StaysInside : SessionCall Row → KvSession Row → Prop
  | .prefill rows, session | .injectTokens _ rows, session =>
      session.dposHost + rows.length < geometry.Pmax
  | .rewind delta, session =>
      0 < delta → (∃ layer, geometry.swaOwner layer = true) → 0 < geometry.ringW →
        session.dposHost - session.commitPos ≤ geometry.Jmax
  | _, _ => True

end Indices

/-! ## One step -/

section Steps

variable {Row : Type u} {geometry : OpenGeometry} {widths : RowWidths}
variable {session next : KvSession Row}

theorem slotIndex_inBounds {layer pos : Nat} (inside : pos < geometry.Pmax) :
    (geometry.slotIndex layer pos).InBounds geometry.toGeometry := by
  by_cases ringed : geometry.ringed layer = true
  · have ring := (Geometry.ringed_iff.mp ringed).1
    rw [Geometry.slotIndex, if_pos ringed, Geometry.slotOf, if_pos ringed]
    exact Nat.mod_lt _ ring
  · rw [Geometry.slotIndex, if_neg ringed, Geometry.slotOf, if_neg ringed]
    exact inside

theorem journalIndex_inBounds {commitPos layer pos : Nat} {index : KvIndex}
    (room : 0 < geometry.ringW → commitPos ≤ pos ∧ pos < commitPos + geometry.Jmax)
    (used : index ∈ geometry.journalIndex commitPos layer pos) :
    index.InBounds geometry.toGeometry := by
  unfold Geometry.journalIndex at used
  split at used
  next ringed =>
    rw [List.mem_singleton.mp used]
    obtain ⟨above, below⟩ := room (Geometry.ringed_iff.mp ringed).1
    exact ⟨by omega, by omega⟩
  next => cases used

/-- After the auto-slide the live position has a journal row. -/
theorem slid_room (placed : session.Placed geometry.toGeometry) (ring : 0 < geometry.ringW) :
    (slideJournal geometry.toGeometry session).commitPos ≤ session.dposHost ∧
      session.dposHost <
        (slideJournal geometry.toGeometry session).commitPos + geometry.Jmax := by
  have journal_pos := geometry.journal_pos
  have baseline := placed.commit_le ring
  unfold slideJournal
  split
  next => exact ⟨Nat.sub_le _ _, by simp only; omega⟩
  next stays =>
    rw [not_and, not_and] at stays
    have room := stays ring journal_pos
    exact ⟨baseline, by omega⟩

theorem stepIndices_inBounds {head : Bool} (placed : session.Placed geometry.toGeometry)
    (inside : session.dposHost < geometry.Pmax)
    (headFits : head = true → session.dposHost + 1 < geometry.Pmax) :
    ∀ index ∈ stepIndices geometry.toGeometry head (slideJournal geometry.toGeometry session),
      index.InBounds geometry.toGeometry := by
  intro index used
  simp only [stepIndices, slideJournal_dposHost, List.cons_append, List.mem_cons,
    List.mem_append, List.mem_flatMap, List.mem_map] at used
  rcases used with token | ⟨layer, _, store | ⟨pos, read, rfl⟩⟩ | argmax
  · rw [token]
    exact inside
  · split at store
    next =>
      rcases List.mem_cons.mp store with slot | journal
      · rw [slot]
        exact slotIndex_inBounds inside
      · exact journalIndex_inBounds (fun ring => slid_room placed ring) journal
    next => cases store
  · exact slotIndex_inBounds ((Geometry.mem_window.mp read).1.trans_lt inside)
  · split at argmax
    next headed =>
      rw [List.mem_singleton.mp argmax]
      exact headFits headed
    next => cases argmax

/-- A loop of steps stays inside when the last step's argmax does. -/
theorem stepsIndices_inBounds {headAt : Nat → Bool} {host : Nat → List KvIndex}
    {rows : List (Minted Row)} (placed : session.Placed geometry.toGeometry)
    (inside : session.dposHost + rows.length ≤ geometry.Pmax)
    (headFits : ∀ left < rows.length, headAt left = true →
      session.dposHost + rows.length < geometry.Pmax + left)
    (hostFits : ∀ pos < session.dposHost + rows.length, ∀ index ∈ host pos,
      index.InBounds geometry.toGeometry) :
    ∀ index ∈ stepsIndices geometry.toGeometry headAt host rows session,
      index.InBounds geometry.toGeometry := by
  induction rows generalizing session with
  | nil =>
      intro index used
      cases used
  | cons row rest inductionHypothesis =>
      rw [List.length_cons] at inside headFits hostFits
      intro index used
      simp only [stepsIndices, List.mem_append] at used
      rcases used with (around | here) | later
      · exact hostFits session.dposHost (by omega) index around
      · refine stepIndices_inBounds placed (by omega) (fun headed => ?_) index here
        have fits := headFits rest.length (by omega) headed
        omega
      · cases stepped : stepAndAdvance geometry.toGeometry row session with
        | none =>
            rw [stepped] at later
            cases later
        | some middle =>
            rw [stepped] at later
            have position := (stepAndAdvance_some stepped).1
            refine inductionHypothesis (placed_step placed (by omega) stepped)
              (by rw [position]; omega) ?_ ?_ index later
            · intro left few headed
              have fits := headFits left (by omega) headed
              omega
            · intro pos below
              exact hostFits pos (by omega)

/-- The argmax of a step is among the loop's indices. -/
theorem argmax_mem_stepsIndices {headAt : Nat → Bool} {host : Nat → List KvIndex}
    {rows : List (Minted Row)} (some_row : rows.length ≠ 0) (headed : headAt 0 = true)
    (run : runEach (stepAndAdvance geometry.toGeometry) rows session = some next) :
    .token (session.dposHost + rows.length) ∈
      stepsIndices geometry.toGeometry headAt host rows session := by
  induction rows generalizing session with
  | nil => exact absurd rfl some_row
  | cons row rest inductionHypothesis =>
      obtain ⟨middle, stepped, continued⟩ := Option.bind_eq_some_iff.mp run
      simp only [stepsIndices, List.mem_append, stepped]
      cases rest with
      | nil =>
          refine Or.inl (Or.inr ?_)
          simp only [stepIndices, slideJournal_dposHost, List.length_nil, headed, if_true,
            List.cons_append, List.mem_cons, List.mem_append, List.length_cons]
          exact Or.inr (Or.inr (Or.inl trivial))
      | cons second rest =>
          have last := inductionHypothesis (by simp) continued
          rw [(stepAndAdvance_some stepped).1, List.length_cons] at last
          refine Or.inr ?_
          rw [List.length_cons, List.length_cons]
          rwa [show session.dposHost + 1 + (rest.length + 1) =
            session.dposHost + (rest.length + 1 + 1) by omega] at last

end Steps

/-! ## One call -/

section Calls

variable {Row : Type u} {geometry : OpenGeometry} {widths : RowWidths}
variable {session next : KvSession Row}

theorem batchIndices_inBounds {count P : Nat} (inside : P + count ≤ geometry.Pmax) :
    ∀ index ∈ batchIndices geometry.toGeometry widths count P,
      index.InBounds geometry.toGeometry := by
  intro index used
  simp only [batchIndices, List.mem_append, List.mem_map, List.mem_range, List.mem_flatMap]
    at used
  rcases used with ⟨j, below, rfl⟩ | ⟨layer, _, sunk | attended⟩
  · exact Nat.lt_of_lt_of_le (Nat.add_lt_add_left below P) inside
  · split at sunk
    next =>
      obtain ⟨pos, placed, rfl⟩ := List.mem_map.mp sunk
      apply slotIndex_inBounds
      rcases List.mem_append.mp placed with tail | fresh
      · split at tail
        next =>
          have bounds := List.mem_range'_1.mp tail
          split at bounds
          next => omega
          next => omega
        next => cases tail
      · have bounds := List.mem_range'_1.mp fresh
        split at bounds
        next => omega
        next => omega
    next => cases sunk
  · split at attended
    next =>
      obtain ⟨j, below, read⟩ := List.mem_flatMap.mp attended
      obtain ⟨pos, seen, rfl⟩ := List.mem_map.mp read
      apply slotIndex_inBounds
      have bound := (Geometry.mem_window.mp seen).1
      have fresh := List.mem_range.mp below
      omega
    next => cases attended

theorem piecesIndices_inBounds {env : Nat → BatchEnv} {parts : List (List (Minted Row))}
    {off : Nat} (served : (prefillPieces geometry.toGeometry env parts off session).2 = true) :
    ∀ index ∈ piecesIndices geometry.toGeometry widths parts off,
      index.InBounds geometry.toGeometry := by
  induction parts generalizing off session with
  | nil =>
      intro index used
      cases used
  | cons piece rest inductionHypothesis =>
      unfold prefillPieces at served
      cases batched : gemma4KvPrefillBatchedFrom geometry.toGeometry (env off) piece off session with
      | none =>
          rw [batched] at served
          cases served
      | some middle =>
          rw [batched] at served
          intro index used
          rcases List.mem_append.mp used with here | later
          · exact batchIndices_inBounds (batchedFrom_some batched).2.1 index here
          · exact inductionHypothesis served index later

theorem orRefuse_success {call : KvSession Row → Option (KvSession Row)}
    (served : (orRefuse call session).2 = true) : ∃ next, call session = some next := by
  unfold orRefuse at served
  cases answered : call session with
  | none =>
      rw [answered] at served
      cases served
  | some next => exact ⟨next, rfl⟩

theorem decodeIndices_inBounds {host : Nat → List KvIndex} {rows : List (Minted Row)}
    (placed : session.Placed geometry.toGeometry)
    (decoded : gemma4KvDecode geometry.toGeometry rows session = some next)
    (hostFits : ∀ pos, pos + 1 < geometry.Pmax → ∀ index ∈ host pos,
      index.InBounds geometry.toGeometry) :
    ∀ index ∈ stepsIndices geometry.toGeometry (fun _ => true) host rows session,
      index.InBounds geometry.toGeometry := by
  have room := (decode_some decoded).1
  apply stepsIndices_inBounds placed room.le
  · intro left _ _
    omega
  · intro pos below
    exact hostFits pos (by omega)

theorem prefillIndices_iff {rows : List (Minted Row)}
    (placed : session.Placed geometry.toGeometry)
    (filled : gemma4KvPrefill geometry.toGeometry rows session = some next) :
    (∀ index ∈ prefillIndices geometry.toGeometry rows session,
        index.InBounds geometry.toGeometry) ↔
      session.dposHost + rows.length < geometry.Pmax := by
  obtain ⟨some_row, room, run⟩ := prefill_some filled
  constructor
  · intro fits
    exact fits _ (List.mem_append_right _
      (argmax_mem_stepsIndices some_row (by decide) run))
  · intro free index used
    rcases List.mem_append.mp used with copied | stepped
    · obtain ⟨i, below, rfl⟩ := List.mem_map.mp copied
      exact Nat.lt_trans (Nat.add_lt_add_left (List.mem_range.mp below) _) free
    · refine stepsIndices_inBounds placed room (fun left _ _ => by omega) ?_ index stepped
      intro _ _ index used
      cases used

theorem injectIndices_iff {scale : Option (Row → Row)} {rows : List (Minted Row)}
    (placed : session.Placed geometry.toGeometry)
    (injected : gemma4KvInjectTokens geometry.toGeometry widths scale rows session = some next) :
    (∀ index ∈ injectIndices geometry.toGeometry scale.isSome rows session,
        index.InBounds geometry.toGeometry) ↔
      session.dposHost + rows.length < geometry.Pmax := by
  obtain ⟨room, stepped, run, _⟩ := inject_some injected
  have some_row : rows.length ≠ 0 := by
    intro none_left
    unfold gemma4KvInjectTokens at injected
    rw [if_pos (Or.inl none_left)] at injected
    cases injected
  constructor
  · intro fits
    exact fits _ (List.mem_append_left _
      (argmax_mem_stepsIndices some_row rfl (runEach_prefill_singletons run)))
  · intro free index used
    rcases List.mem_append.mp used with stepped | scaled
    · refine stepsIndices_inBounds placed room (fun left _ _ => by omega) ?_ index stepped
      intro pos below index used
      rw [List.mem_singleton.mp used]
      exact Nat.lt_of_lt_of_le below room
    · split at scaled
      next =>
        obtain ⟨layer, _, slots⟩ := List.mem_flatMap.mp scaled
        obtain ⟨pos, member, rfl⟩ := List.mem_map.mp slots
        have bounds := List.mem_range'_1.mp member
        exact slotIndex_inBounds (by omega)
      next => cases scaled

/-- The slots and journal rows of positions the journal covers. -/
theorem journaled_inBounds {commitPos start count layer : Nat} {index : KvIndex}
    (inside : start + count ≤ geometry.Pmax)
    (room : 0 < geometry.ringW → commitPos ≤ start ∧ start + count ≤ commitPos + geometry.Jmax)
    (used : index ∈ (List.range' start count).flatMap fun pos =>
      geometry.slotIndex layer pos :: geometry.journalIndex commitPos layer pos) :
    index.InBounds geometry.toGeometry := by
  obtain ⟨pos, member, here⟩ := List.mem_flatMap.mp used
  have bounds := List.mem_range'_1.mp member
  rcases List.mem_cons.mp here with slot | journal
  · rw [slot]
    exact slotIndex_inBounds (by omega)
  · refine journalIndex_inBounds (fun ring => ?_) journal
    have covered := room ring
    omega

theorem replayIndices_inBounds {rows : List (Minted Row)}
    (placed : session.Placed geometry.toGeometry)
    (replayed : gemma4KvReplay geometry.toGeometry widths rows session = some next) :
    ∀ index ∈ journaledIndices geometry.toGeometry session.commitPos session.dposHost rows.length,
      index.InBounds geometry.toGeometry := by
  obtain ⟨room, depth, _⟩ := replay_some replayed
  intro index used
  obtain ⟨layer, _, here⟩ := List.mem_flatMap.mp used
  refine journaled_inBounds room (fun ring => ?_) here
  have baseline := placed.commit_le ring
  have fits := depth ring
  exact ⟨baseline, by omega⟩

theorem rewindIndices_iff {delta : Int} (placed : session.Placed geometry.toGeometry)
    (rewound : gemma4KvRewind geometry.toGeometry delta session = some next) :
    (∀ index ∈ rewindIndices geometry.toGeometry delta.toNat session,
        index.InBounds geometry.toGeometry) ↔
      (0 < delta → (∃ layer, geometry.swaOwner layer = true) → 0 < geometry.ringW →
        session.dposHost - session.commitPos ≤ geometry.Jmax) := by
  obtain ⟨nonnegative, inside, uncommitted, _⟩ := rewind_some rewound
  have present := placed.present_le
  unfold rewindIndices
  constructor
  · intro fits moves owner ring
    obtain ⟨layer, owned⟩ := owner
    obtain ⟨known, owns, windowed⟩ := Geometry.swaOwner_iff.mp owned
    have ringed : geometry.ringed layer = true := Geometry.ringed_iff.mpr ⟨ring, windowed⟩
    -- the newest position's journal row is the highest one read
    have newest := fits (.journalRow (((session.dposHost - 1 : Nat) : Int) - session.commitPos)) (by
      rw [if_pos ring]
      refine List.mem_flatMap.mpr ⟨layer, List.mem_filter.mpr ⟨?_, ringed⟩,
        List.mem_flatMap.mpr ⟨session.dposHost - 1, ?_, ?_⟩⟩
      · exact List.mem_range.mpr (lt_min owns known)
      · exact List.mem_range'_1.mpr ⟨by omega, by omega⟩
      · rw [Geometry.journalIndex, if_pos ringed]
        exact List.mem_cons_of_mem _ List.mem_cons_self)
    have below := newest.2
    omega
  · intro covered index used
    split at used
    next ring =>
      obtain ⟨layer, member, here⟩ := List.mem_flatMap.mp used
      obtain ⟨owner, ringed⟩ := List.mem_filter.mp member
      have owned : geometry.swaOwner layer = true := by
        have bounds := List.mem_range.mp owner
        exact Geometry.swaOwner_iff.mpr
          ⟨bounds.trans_le (min_le_right _ _), bounds.trans_le (min_le_left _ _),
            (Geometry.ringed_iff.mp ringed).2⟩
      refine journaled_inBounds (by omega) (fun _ => ?_) here
      have above := uncommitted ring
      by_cases moves : 0 < delta
      · have depth := covered moves ⟨layer, owned⟩ ring
        omega
      · have none_moved : delta.toNat = 0 := by omega
        rw [none_moved] at here
        cases here
    next => cases used

theorem restoreIndices_inBounds {saved : PrefixRows Row}
    (restored : restoreRowsAt geometry.toGeometry saved session = some next) :
    ∀ index ∈ restoreIndices geometry.toGeometry saved.P,
      index.InBounds geometry.toGeometry := by
  have room := (restoreRowsAt_some restored).1
  have ring_le := geometry.ring_le
  intro index used
  obtain ⟨layer, _, slots⟩ := List.mem_flatMap.mp used
  obtain ⟨slot, member, rfl⟩ := List.mem_map.mp slots
  have below := List.mem_range.mp member
  apply slotIndex_inBounds
  unfold prefixSlots at below
  split at below
  next => exact below.trans_le ring_le
  next => exact below.trans_le room

/-- A successful call stays inside its buffers exactly when its condition holds. -/
theorem indices_inBounds_iff (call : SessionCall Row)
    (placed : session.Placed geometry.toGeometry)
    (served : (call.serve geometry.toGeometry widths session).2 = true) :
    (∀ index ∈ call.indices geometry.toGeometry widths session,
        index.InBounds geometry.toGeometry) ↔
      call.StaysInside geometry.toGeometry session := by
  cases call with
  | prefill rows =>
      obtain ⟨next, filled⟩ := orRefuse_success served
      exact prefillIndices_iff placed filled
  | prefillBatched env chunk rows =>
      refine iff_of_true ?_ trivial
      simp only [SessionCall.serve, gemma4KvPrefillBatched] at served
      simp only [SessionCall.indices]
      split at served
      next single =>
        rw [if_pos single]
        obtain ⟨next, batched⟩ := @orRefuse_success _ session
          (gemma4KvPrefillBatchedFrom geometry.toGeometry (env 0) rows 0) served
        exact batchIndices_inBounds (batchedFrom_some batched).2.1
      next several =>
        rw [if_neg several]
        exact piecesIndices_inBounds served
  | prefillBatchedFrom env rows P =>
      obtain ⟨next, batched⟩ := orRefuse_success served
      exact iff_of_true (batchIndices_inBounds (batchedFrom_some batched).2.1) trivial
  | decode rows =>
      obtain ⟨next, decoded⟩ := orRefuse_success served
      refine iff_of_true (decodeIndices_inBounds placed decoded ?_) trivial
      intro pos room index used
      rw [List.mem_singleton.mp used]
      exact room
  | decodeLogits row =>
      obtain ⟨next, decoded⟩ := orRefuse_success served
      refine iff_of_true (decodeIndices_inBounds placed (decodeLogits_some decoded) ?_) trivial
      intro pos room index used
      rw [List.mem_singleton.mp used]
      exact Nat.lt_of_succ_lt room
  | decodeBatch rows =>
      obtain ⟨next, decoded⟩ := orRefuse_success served
      refine iff_of_true (decodeIndices_inBounds placed (decodeBatch_some decoded) ?_) trivial
      intro pos room index used
      rw [List.mem_singleton.mp used]
      exact Nat.lt_of_succ_lt room
  | injectTokens scale rows =>
      obtain ⟨next, injected⟩ := orRefuse_success served
      exact injectIndices_iff placed injected
  | replay rows =>
      obtain ⟨next, replayed⟩ := orRefuse_success served
      exact iff_of_true (replayIndices_inBounds placed replayed) trivial
  | readGlobalQ row =>
      obtain ⟨next, peeked⟩ := orRefuse_success served
      have room := (readGlobalQ_some peeked).1
      refine iff_of_true ?_ trivial
      intro index used
      rcases List.mem_cons.mp used with token | stepped
      · rw [token]
        exact Nat.lt_of_succ_lt room
      · exact stepIndices_inBounds placed (Nat.lt_of_succ_lt room) (fun headed => by cases headed)
          index stepped
  | rewind delta =>
      obtain ⟨next, rewound⟩ := orRefuse_success served
      exact rewindIndices_iff placed rewound
  | commit => exact iff_of_true (fun index used => by cases used) trivial
  | shear P => exact iff_of_true (fun index used => by cases used) trivial
  | restorePrefix saved =>
      obtain ⟨next, restored⟩ := orRefuse_success served
      exact iff_of_true (restoreIndices_inBounds restored) trivial
  | reset => exact iff_of_true (fun index used => by cases used) trivial

end Calls

/-! ## Every run -/

/-- In every run from a fresh session, the successful calls stay inside their buffers exactly
when each of them meets its condition. -/
theorem kvCalls_inBounds_iff {Row : Type u} (geometry : OpenGeometry) (widths : RowWidths)
    (layers : Nat → LayerCache Row) (oneShot : Bool) (calls : List (SessionCall Row)) :
    GuardedRun (fun call session => (call.serve geometry.toGeometry widths session).1)
        (fun call session => (call.serve geometry.toGeometry widths session).2 = true →
          ∀ index ∈ call.indices geometry.toGeometry widths session,
            index.InBounds geometry.toGeometry)
        calls (KvSession.opened layers oneShot) ↔
      GuardedRun (fun call session => (call.serve geometry.toGeometry widths session).1)
        (fun call session => (call.serve geometry.toGeometry widths session).2 = true →
          call.StaysInside geometry.toGeometry session)
        calls (KvSession.opened layers oneShot) := by
  apply GuardedRun.congr (fun call _ placed => placed_serve widths call placed)
  · intro call session placed
    exact imp_congr_right fun served => indices_inBounds_iff call placed served
  · exact placed_opened layers oneShot

/-- A prefill may fill `dseq` to its end, and its argmax then writes behind it; a rewind after
a batched prefill of more rows than the journal holds reads behind the journal. -/
theorem kvCalls_leave_buffers :
    ∃ geometry : OpenGeometry, geometry.Pmax = 4 ∧ geometry.Jmax = 1 ∧
      let widths : RowWidths := ⟨1, 1, 1, 1, false, false⟩
      let session : KvSession Nat := KvSession.opened (fun _ => ⟨fun _ => 0, fun _ => 0⟩) true
      let rows : List (Minted Nat) := List.replicate 4 fun _ => 1
      let batched := ((SessionCall.prefillBatched (fun _ => ⟨true, true⟩) 0 (rows.take 3)).serve
        geometry.toGeometry widths session).1
      (((SessionCall.prefill rows).serve geometry.toGeometry widths session).2 = true ∧
        .token 4 ∈ (SessionCall.prefill rows).indices geometry.toGeometry widths session ∧
        ¬ (KvIndex.token 4).InBounds geometry.toGeometry) ∧
      ((SessionCall.rewind 1).serve geometry.toGeometry widths batched).2 = true ∧
      .journalRow 2 ∈ (@SessionCall.rewind Nat 1).indices geometry.toGeometry widths
        batched ∧
      ¬ (KvIndex.journalRow 2).InBounds geometry.toGeometry := by
  refine ⟨{ Pmax := 4, NL := 2, kvfs := 2, period := 2, SW := 2, ringW := 2, Jmax := 1,
            cpuTail := 0, pmax_pos := by decide, ring_le := by decide, journal_pos := by decide },
    rfl, rfl, ⟨by decide, by decide, ?_⟩, by decide, by decide, ?_⟩
  · exact Nat.lt_irrefl 4
  · rintro ⟨_, below⟩
    exact absurd below (by decide)

end KairosEngine.Cuda
