import Mathlib.Data.List.Basic
import Mathlib.Tactic.Linarith
import Mathlib.Tactic.Ring

/-!
# Row-major packings and strided walks

A packing says where the row of a layer and position lies in a flat buffer.  A walk
takes one slice for every layer and position at a stride of its own; it is right when
each slice lies in the row of its own layer and position.
-/

namespace KairosEngine.Library

universe u v

/-- A row-major packing `[layers][positions][width]`. -/
structure Packing where
  layers : Nat
  positions : Nat
  width : Nat
  deriving DecidableEq

/-- A slice taken for one layer and position. -/
structure Fetch where
  layer : Nat
  position : Nat
  base : Nat
  width : Nat
  deriving DecidableEq

namespace Packing

variable {Alpha : Type u} (packing : Packing)

def start (layer position : Nat) : Nat := (layer * packing.positions + position) * packing.width

def size : Nat := packing.layers * packing.positions * packing.width

def row (buffer : List Alpha) (layer position : Nat) : List Alpha :=
  (buffer.drop (packing.start layer position)).take packing.width

theorem grid_lt {layers positions layer position : Nat} (layerBound : layer < layers)
    (positionBound : position < positions) :
    layer * positions + position < layers * positions := by
  calc layer * positions + position
      < layer * positions + positions := Nat.add_lt_add_left positionBound _
    _ = (layer + 1) * positions := (Nat.succ_mul layer positions).symm
    _ ≤ layers * positions := Nat.mul_le_mul_right positions layerBound

theorem start_add_width_le_size {layer position : Nat} (layerBound : layer < packing.layers)
    (positionBound : position < packing.positions) :
    packing.start layer position + packing.width ≤ packing.size := by
  have inside := grid_lt layerBound positionBound
  calc packing.start layer position + packing.width
      = (layer * packing.positions + position + 1) * packing.width := by
        rw [start, Nat.succ_mul]
    _ ≤ packing.size := Nat.mul_le_mul_right packing.width inside

end Packing

/-! ## Rows of a concatenation -/

section Concatenation

variable {Alpha : Type u} {Beta : Type v}

theorem length_flatMap_uniform {parts : List Alpha} {part : Alpha → List Beta} {width : Nat}
    (uniform : ∀ entry ∈ parts, (part entry).length = width) :
    (parts.flatMap part).length = parts.length * width := by
  induction parts with
  | nil => simp
  | cons head tail inductionHypothesis =>
      rw [List.flatMap_cons, List.length_append, uniform head List.mem_cons_self,
        inductionHypothesis fun entry membership => uniform entry (List.mem_cons_of_mem _ membership),
        List.length_cons, Nat.succ_mul, Nat.add_comm]

/-- In a concatenation of parts of one length, each part stands at its own multiple. -/
theorem flatMap_uniform_slice {parts : List Alpha} {part : Alpha → List Beta} {width index : Nat}
    (uniform : ∀ entry ∈ parts, (part entry).length = width) (bound : index < parts.length) :
    ((parts.flatMap part).drop (index * width)).take width = part parts[index] := by
  induction parts generalizing index with
  | nil => exact absurd bound (Nat.not_lt_zero _)
  | cons head tail inductionHypothesis =>
      have headLength := uniform head List.mem_cons_self
      rw [List.flatMap_cons]
      cases index with
      | zero => simp [← headLength]
      | succ index =>
          have skipped : (index + 1) * width = (part head).length + index * width := by
            rw [headLength]
            ring
          rw [skipped, ← List.drop_drop, List.drop_left]
          exact inductionHypothesis
            (fun entry membership => uniform entry (List.mem_cons_of_mem _ membership))
            (Nat.lt_of_succ_lt_succ bound)

/-- The row of a position inside the part of its layer. -/
theorem Packing.row_flatMap {packing : Packing} {parts : List Alpha} {part : Alpha → List Beta}
    {layer position : Nat}
    (uniform : ∀ entry ∈ parts, (part entry).length = packing.positions * packing.width)
    (layerBound : layer < parts.length) (positionBound : position < packing.positions) :
    packing.row (parts.flatMap part) layer position =
      ((part parts[layer]).drop (position * packing.width)).take packing.width := by
  have inside : position * packing.width + packing.width ≤ packing.positions * packing.width := by
    rw [← Nat.succ_mul]
    exact Nat.mul_le_mul_right _ positionBound
  have starts : packing.start layer position =
      layer * (packing.positions * packing.width) + position * packing.width := by
    rw [Packing.start]
    ring
  rw [← flatMap_uniform_slice uniform layerBound, Packing.row, starts, List.drop_take,
    List.take_take, List.drop_drop, Nat.min_eq_left (by omega)]

theorem Packing.row_append {packing : Packing} {buffer rest : List Alpha} {layer position : Nat}
    (sized : packing.size ≤ buffer.length) (layerBound : layer < packing.layers)
    (positionBound : position < packing.positions) :
    packing.row (buffer ++ rest) layer position = packing.row buffer layer position := by
  have inside := packing.start_add_width_le_size layerBound positionBound
  rw [Packing.row, Packing.row, List.drop_append_of_le_length (by omega),
    List.take_append_of_le_length]
  rw [List.length_drop]
  omega

end Concatenation

/-! ## Row buffers -/

section Copies

variable {Alpha : Type u}

/-- The first `rows` rows of a buffer, end to end. -/
def copyOut (width rows : Nat) (cell : Nat → Nat → Alpha) : List Alpha :=
  (List.range rows).flatMap fun row => (List.range width).map (cell row)

/-- Write rows end to end over the first ones of a buffer. -/
def copyIn (width rows : Nat) (flat : List Alpha) (cell : Nat → Nat → Alpha) :
    Nat → Nat → Alpha :=
  fun row column =>
    if row < rows then
      match ((flat.drop (row * width)).take width)[column]? with
      | some entry => entry
      | none => cell row column
    else cell row column

theorem length_copyOut (width rows : Nat) (cell : Nat → Nat → Alpha) :
    (copyOut width rows cell).length = rows * width := by
  rw [copyOut, @length_flatMap_uniform _ _ _ _ width, List.length_range]
  intro row _
  rw [List.length_map, List.length_range]

theorem copyIn_copyOut {width rows row column : Nat} {source target : Nat → Nat → Alpha}
    (rowBound : row < rows) (columnBound : column < width) :
    copyIn width rows (copyOut width rows source) target row column = source row column := by
  have slice := @flatMap_uniform_slice _ _ (List.range rows)
    (fun row => (List.range width).map (source row)) width row
    (fun _ _ => by rw [List.length_map, List.length_range]) (by rwa [List.length_range])
  rw [copyIn, if_pos rowBound, copyOut, slice, List.getElem?_map, List.getElem_range,
    List.getElem?_range columnBound, Option.map_some]

theorem copyIn_of_le {width rows row : Nat} {flat : List Alpha} {cell : Nat → Nat → Alpha}
    (outside : rows ≤ row) : copyIn width rows flat cell row = cell row := by
  funext column
  rw [copyIn, if_neg (Nat.not_lt.mpr outside)]

end Copies

/-! ## Walks -/

namespace Fetch

variable {Alpha : Type u}

/-- The slice, or `none` for an index outside the buffer. -/
def read (buffer : List Alpha) (fetch : Fetch) : Option (List Alpha) :=
  if fetch.base + fetch.width ≤ buffer.length then
    some ((buffer.drop fetch.base).take fetch.width)
  else
    none

/-- The slice lies in the row that the packing has for its layer and position. -/
def InRow (fetch : Fetch) (packing : Packing) : Prop :=
  fetch.layer < packing.layers ∧ fetch.position < packing.positions ∧
    packing.start fetch.layer fetch.position ≤ fetch.base ∧
    fetch.base + fetch.width ≤ packing.start fetch.layer fetch.position + packing.width

theorem InRow.within {fetch : Fetch} {packing : Packing} (inRow : fetch.InRow packing) :
    fetch.base + fetch.width ≤ packing.size :=
  Nat.le_trans inRow.2.2.2 (packing.start_add_width_le_size inRow.1 inRow.2.1)

/-- What a slice in a row reads is a part of that row. -/
theorem InRow.read_eq {fetch : Fetch} {packing : Packing} {buffer : List Alpha}
    (inRow : fetch.InRow packing) (inside : fetch.base + fetch.width ≤ buffer.length) :
    fetch.read buffer = some
      (((packing.row buffer fetch.layer fetch.position).drop
        (fetch.base - packing.start fetch.layer fetch.position)).take fetch.width) := by
  rw [read, if_pos inside, Packing.row, List.drop_take, List.take_take,
    List.drop_drop, Nat.add_sub_cancel' inRow.2.2.1, Nat.min_eq_left]
  have starts := inRow.2.2.1
  have ends := inRow.2.2.2
  omega

theorem mapM_read_isSome {buffer : List Alpha} {fetches : List Fetch}
    (inside : ∀ fetch ∈ fetches, fetch.base + fetch.width ≤ buffer.length) :
    (fetches.mapM (read buffer)).isSome = true := by
  induction fetches with
  | nil => rfl
  | cons head tail inductionHypothesis =>
      have rest := inductionHypothesis fun fetch membership =>
        inside fetch (List.mem_cons_of_mem _ membership)
      obtain ⟨slices, taken⟩ := Option.isSome_iff_exists.mp rest
      rw [List.mapM_cons, read, if_pos (inside head List.mem_cons_self), taken]
      rfl

end Fetch

/-- One slice for every layer and position, in row-major order. -/
def gridFetches (layers positions width : Nat) (base : Nat → Nat → Nat) : List Fetch :=
  (List.range layers).flatMap fun layer =>
    (List.range positions).map fun position =>
      { layer, position, base := base layer position, width }

theorem mem_gridFetches {layers positions width : Nat} {base : Nat → Nat → Nat} {fetch : Fetch} :
    fetch ∈ gridFetches layers positions width base ↔
      fetch.layer < layers ∧ fetch.position < positions ∧
        fetch.base = base fetch.layer fetch.position ∧ fetch.width = width := by
  rw [gridFetches, List.mem_flatMap]
  constructor
  · rintro ⟨layer, layerBound, membership⟩
    rw [List.mem_map] at membership
    rcases membership with ⟨position, positionBound, rfl⟩
    exact ⟨List.mem_range.mp layerBound, List.mem_range.mp positionBound, rfl, rfl⟩
  · rintro ⟨layerBound, positionBound, based, wide⟩
    refine ⟨fetch.layer, List.mem_range.mpr layerBound, List.mem_map.mpr ?_⟩
    refine ⟨fetch.position, List.mem_range.mpr positionBound, ?_⟩
    cases fetch with
    | mk layer position base width =>
        simp only at based wide
        rw [based, wide]

/-- The walk that takes slices of one width at a fixed stride. -/
def stridedFetches (layers positions stride width : Nat) : List Fetch :=
  gridFetches layers positions width fun layer position => (layer * positions + position) * stride

/-- The last of `count` slices ends at or before a bound. -/
theorem strided_end_le {layers positions stride width bound layer position : Nat}
    (last : (layers * positions - 1) * stride + width ≤ bound) (layerBound : layer < layers)
    (positionBound : position < positions) :
    (layer * positions + position) * stride + width ≤ bound := by
  have inside := Packing.grid_lt layerBound positionBound
  have before : layer * positions + position ≤ layers * positions - 1 := by omega
  have ordered := Nat.mul_le_mul_right stride before
  omega

/-- Over rows of which there are several, a walk is right exactly when its stride is at
least the width of a row and its last slice still ends in the last row. -/
theorem stridedFetches_inRow_iff {layers positions stride width : Nat} {packing : Packing}
    (samePositions : packing.positions = positions) (layersPositive : 0 < layers)
    (positionsPositive : 0 < positions) :
    (∀ fetch ∈ stridedFetches layers positions stride width, fetch.InRow packing) ↔
      layers ≤ packing.layers ∧
        (layers * positions - 1) * stride + width ≤ layers * positions * packing.width ∧
        (layers * positions ≤ 1 ∨ packing.width ≤ stride) := by
  have several : 0 < layers * positions := Nat.mul_pos layersPositive positionsPositive
  have lastIndex : (layers - 1) * positions + (positions - 1) = layers * positions - 1 := by
    obtain ⟨layers, rfl⟩ := Nat.exists_eq_succ_of_ne_zero (Nat.pos_iff_ne_zero.mp layersPositive)
    rw [Nat.succ_sub_one, Nat.succ_mul]
    omega
  constructor
  · intro right
    have member : ∀ layer < layers, ∀ position < positions,
        Fetch.InRow
          { layer, position, base := (layer * positions + position) * stride, width } packing :=
      fun layer layerBound position positionBound =>
        right _ (mem_gridFetches.mpr ⟨layerBound, positionBound, rfl, rfl⟩)
    have last := member (layers - 1) (by omega) (positions - 1) (by omega)
    refine ⟨?_, ?_, ?_⟩
    · have bound := last.1
      simp only at bound
      omega
    · have ends := last.2.2.2
      simp only [Packing.start, samePositions, lastIndex] at ends
      calc (layers * positions - 1) * stride + width
          ≤ (layers * positions - 1) * packing.width + packing.width := ends
        _ = (layers * positions - 1 + 1) * packing.width := (Nat.succ_mul _ _).symm
        _ = layers * positions * packing.width := by rw [Nat.sub_add_cancel several]
    · by_cases single : layers * positions ≤ 1
      · exact Or.inl single
      · apply Or.inr
        have starts := last.2.2.1
        simp only [Packing.start, samePositions, lastIndex] at starts
        exact Nat.le_of_mul_le_mul_left starts (by omega)
  · rintro ⟨enough, ends, wide⟩ fetch membership
    rw [stridedFetches, mem_gridFetches] at membership
    rcases membership with ⟨layerBound, positionBound, based, widths⟩
    have inside := Packing.grid_lt layerBound positionBound
    refine ⟨Nat.lt_of_lt_of_le layerBound enough, samePositions ▸ positionBound, ?_, ?_⟩
    · rw [based, Packing.start, samePositions]
      rcases wide with single | strided
      · have first : fetch.layer * positions + fetch.position = 0 := by omega
        rw [first, Nat.zero_mul]
        exact Nat.zero_le _
      · exact Nat.mul_le_mul_left _ strided
    · rw [based, widths, Packing.start, samePositions]
      rcases wide with single | strided
      · have first : fetch.layer * positions + fetch.position = 0 := by omega
        have one : layers * positions = 1 := by omega
        rw [one] at ends
        rw [first]
        simpa using ends
      · -- the rows after this one are as far behind the bound as they are many
        obtain ⟨behind, counted⟩ : ∃ behind,
            layers * positions = fetch.layer * positions + fetch.position + 1 + behind :=
          ⟨_, (Nat.add_sub_cancel' inside).symm⟩
        rw [counted] at ends
        generalize fetch.layer * positions + fetch.position = index at ends ⊢
        have shorter := Nat.mul_le_mul_left behind strided
        have expand : index + 1 + behind - 1 = index + behind := by omega
        rw [expand, Nat.add_mul index behind, Nat.add_mul (index + 1), Nat.add_mul index 1,
          Nat.one_mul] at ends
        omega

end KairosEngine.Library
