import Mathlib.Algebra.Group.Nat.Defs
import Mathlib.Data.List.TakeWhile
import KairosEngine.Tokenizer.Gemma4Piece

/-!
# The pre-tokenizer of `tokenizer.c`

A byte string is read as codepoints, well formed or not, and `next_piece` says how many of them the
next piece takes.  It always takes one, so the loop over the pieces ends.
-/

namespace KairosEngine.Tokenizer

/-- A `uint32_t`. -/
def word (value : Nat) : Nat := value % 2 ^ 32

/-- `cp_decode` at the first of the bytes: the codepoint and how many bytes it takes. -/
def cpDecode : Bytes → Nat × Nat
  | [] => (0, 0)
  | c0 :: rest =>
      let lead := c0.toNat
      let low := fun index => (rest.getD index 0).toNat &&& 0x3F
      if lead < 0x80 then (lead, 1)
      else if lead &&& 0xE0 = 0xC0 ∧ 1 ≤ rest.length then ((lead &&& 0x1F) <<< 6 ||| low 0, 2)
      else if lead &&& 0xF0 = 0xE0 ∧ 2 ≤ rest.length then
        ((lead &&& 0x0F) <<< 12 ||| low 0 <<< 6 ||| low 1, 3)
      else if lead &&& 0xF8 = 0xF0 ∧ 3 ≤ rest.length then
        ((lead &&& 0x07) <<< 18 ||| low 0 <<< 12 ||| low 1 <<< 6 ||| low 2, 4)
      else (lead, 1)

theorem cpDecode_advances {bytes : Bytes} (nonempty : bytes ≠ []) :
    0 < (cpDecode bytes).2 ∧ (cpDecode bytes).2 ≤ bytes.length := by
  cases bytes with
  | nil => exact absurd rfl nonempty
  | cons c0 rest =>
      unfold cpDecode
      simp only [List.length_cons]
      split_ifs <;> constructor <;> simp only <;> omega

/-! ## Character classes -/

/-- `in_ranges`: a binary search over sorted ranges. -/
def inRangesFrom (ranges : List (Nat × Nat)) (cp : Nat) : Nat → Nat → Nat → Bool
  | 0, _, _ => false
  | fuel + 1, lo, hi =>
      if lo < hi then
        let mid := (lo + hi) / 2
        let range := ranges.getD mid (0, 0)
        if cp < range.1 then inRangesFrom ranges cp fuel lo mid
        else if range.2 < cp then inRangesFrom ranges cp fuel (mid + 1) hi
        else true
      else false

def inRanges (ranges : List (Nat × Nat)) (cp : Nat) : Bool :=
  inRangesFrom ranges cp (ranges.length + 1) 0 ranges.length

/-- `sp_uni_space`. -/
def spUniSpace : List (Nat × Nat) :=
  [(0x0009, 0x000D), (0x0020, 0x0020), (0x0085, 0x0085), (0x00A0, 0x00A0), (0x1680, 0x1680),
    (0x2000, 0x200A), (0x2028, 0x2029), (0x202F, 0x202F), (0x205F, 0x205F), (0x3000, 0x3000)]

/-- The generated tables `sp_uni_letter` and `sp_uni_number`. -/
structure UnicodeTables where
  spUniLetter : List (Nat × Nat)
  spUniNumber : List (Nat × Nat)

namespace UnicodeTables

variable (tables : UnicodeTables)

def isL (cp : Nat) : Bool := inRanges tables.spUniLetter cp

def isN (cp : Nat) : Bool := inRanges tables.spUniNumber cp

def isS (cp : Nat) : Bool := inRanges spUniSpace cp

/-- Neither whitespace nor letter nor number. -/
def isC4 (cp : Nat) : Bool := !isS cp && !tables.isL cp && !tables.isN cp

end UnicodeTables

def isCrLf (cp : Nat) : Bool := decide (cp = 0x0D ∨ cp = 0x0A)

/-- `lc`. -/
def lc (cp : Nat) : Nat := if 0x41 ≤ cp ∧ cp ≤ 0x5A then cp + 32 else cp

/-! ## The alternatives -/

section Alternatives

variable (tables : UnicodeTables)

/-- The length of the run of a class at the front. -/
def runLength (isIn : Nat → Bool) (cps : List Nat) : Nat := (cps.takeWhile isIn).length

/-- The contractions. -/
def alt1 : List Nat → Option Nat
  | 0x27 :: second :: rest =>
      let c1 := lc second
      let long := rest.head?.any fun third =>
        let c2 := lc third
        decide ((c1 = 0x72 ∨ c1 = 0x76) ∧ c2 = 0x65 ∨ c1 = 0x6C ∧ c2 = 0x6C)
      if long then some 3
      else if c1 = 0x73 ∨ c1 = 0x74 ∨ c1 = 0x6D ∨ c1 = 0x64 then some 2
      else none
  | _ => none

/-- Letters, behind one codepoint that is neither letter nor number nor line end. -/
def alt2 : List Nat → Option Nat
  | [] => none
  | first :: rest =>
      let lead := !isCrLf first && !tables.isL first && !tables.isN first &&
        rest.head?.any tables.isL
      let k := if lead then 1 else 0
      let letters := runLength tables.isL ((first :: rest).drop k)
      if 0 < letters then some (k + letters) else none

/-- A single number. -/
def alt3 (cps : List Nat) : Option Nat := if cps.head?.any tables.isN then some 1 else none

/-- Other codepoints, behind one space, and the line ends behind them. -/
def alt4 : List Nat → Option Nat
  | [] => none
  | first :: rest =>
      let spaced := decide (first = 0x20)
      if spaced && !rest.head?.any tables.isC4 then none
      else
        let k := if spaced then 1 else 0
        let others := runLength tables.isC4 ((first :: rest).drop k)
        if 0 < others then
          some (k + others + runLength isCrLf ((first :: rest).drop (k + others)))
        else none

/-- A run of whitespace: to its last line end, to the end of the text, or without the codepoint that
is left to the next piece. -/
def alt5 (cps : List Nat) : Nat :=
  let e := runLength UnicodeTables.isS cps
  match ((List.range e).filter fun k => isCrLf (cps.getD k 0)).getLast? with
  | some lastnl => lastnl + 1
  | none => if e = cps.length then e else if 2 ≤ e then e - 1 else e

/-- `next_piece`, from the codepoint the piece starts at: how many codepoints it takes. -/
def nextPiece (cps : List Nat) : Nat :=
  match alt1 cps with
  | some taken => taken
  | none =>
      match alt2 tables cps with
      | some taken => taken
      | none =>
          match alt3 tables cps with
          | some taken => taken
          | none =>
              match alt4 tables cps with
              | some taken => taken
              | none => alt5 cps

variable {tables : UnicodeTables}

theorem runLength_drop_le (isIn : Nat → Bool) (cps : List Nat) {k : Nat} (inside : k ≤ cps.length) :
    k + runLength isIn (cps.drop k) ≤ cps.length := by
  have run := (List.takeWhile_sublist (p := isIn) (l := cps.drop k)).length_le
  rw [List.length_drop] at run
  unfold runLength
  omega

theorem alt1_takes {cps : List Nat} {taken : Nat} (found : alt1 cps = some taken) :
    0 < taken ∧ taken ≤ cps.length := by
  unfold alt1 at found
  split at found
  next second rest =>
    simp only at found
    split at found
    next long =>
      cases found
      cases rest with
      | nil => cases long
      | cons third rest => exact ⟨Nat.succ_pos _, by simp⟩
    next =>
      split at found
      next =>
        cases found
        exact ⟨Nat.succ_pos _, by simp⟩
      next => cases found
  next => cases found

theorem ite_one_le {cps : List Nat} (nonempty : cps ≠ []) (condition : Bool) :
    (if condition then 1 else 0) ≤ cps.length := by
  have positive := List.length_pos_of_ne_nil nonempty
  split <;> omega

theorem alt2_takes {cps : List Nat} {taken : Nat} (found : alt2 tables cps = some taken) :
    0 < taken ∧ taken ≤ cps.length := by
  cases cps with
  | nil => cases found
  | cons first rest =>
      simp only [alt2, Option.ite_none_right_eq_some, Option.some.injEq] at found
      obtain ⟨letters, rfl⟩ := found
      exact ⟨Nat.add_pos_right _ letters,
        runLength_drop_le tables.isL (first :: rest) (ite_one_le (List.cons_ne_nil first rest) _)⟩

theorem alt4_takes {cps : List Nat} {taken : Nat} (found : alt4 tables cps = some taken) :
    0 < taken ∧ taken ≤ cps.length := by
  cases cps with
  | nil => cases found
  | cons first rest =>
      simp only [alt4] at found
      split at found
      next => cases found
      next =>
        simp only [Option.ite_none_right_eq_some, Option.some.injEq] at found
        obtain ⟨others, rfl⟩ := found
        refine ⟨Nat.add_pos_left (Nat.add_pos_right _ others) _, ?_⟩
        apply runLength_drop_le isCrLf (first :: rest)
        exact runLength_drop_le tables.isC4 (first :: rest)
          (ite_one_le (List.cons_ne_nil first rest) _)

theorem runLength_pos {isIn : Nat → Bool} {first : Nat} {rest : List Nat} (here : isIn first = true) :
    0 < runLength isIn (first :: rest) := by
  rw [runLength, List.takeWhile_cons_of_pos here]
  exact Nat.succ_pos _

/-- What the other alternatives leave is whitespace. -/
theorem isS_of_none {first : Nat} {rest : List Nat} (noLetter : alt2 tables (first :: rest) = none)
    (noNumber : alt3 tables (first :: rest) = none) (noOther : alt4 tables (first :: rest) = none) :
    UnicodeTables.isS first = true := by
  have letter : tables.isL first = false := by
    rw [← Bool.not_eq_true]
    intro here
    have run : 0 < runLength tables.isL (first :: rest) := runLength_pos here
    simp [alt2, here, run] at noLetter
  have number : tables.isN first = false := by
    rw [← Bool.not_eq_true]
    intro here
    simp [alt3, here] at noNumber
  by_contra other
  have class4 : tables.isC4 first = true := by
    rw [UnicodeTables.isC4, letter, number, eq_false_of_ne_true other]
    rfl
  have unspaced : first ≠ 0x20 := by
    rintro rfl
    exact other (by decide)
  have run : 0 < runLength tables.isC4 (first :: rest) := runLength_pos class4
  simp [alt4, unspaced, run] at noOther

theorem alt5_takes {first : Nat} {rest : List Nat} (space : UnicodeTables.isS first = true) :
    0 < alt5 (first :: rest) ∧ alt5 (first :: rest) ≤ (first :: rest).length := by
  have run : 0 < runLength UnicodeTables.isS (first :: rest) := runLength_pos space
  have inside := runLength_drop_le UnicodeTables.isS (first :: rest) (Nat.zero_le _)
  rw [List.drop_zero, Nat.zero_add] at inside
  unfold alt5
  simp only
  split
  next lastnl last =>
    have member := List.mem_of_getLast? last
    have below := List.mem_range.mp (List.mem_of_mem_filter member)
    omega
  next =>
    split_ifs <;> omega

/-- A piece takes a codepoint, and none behind the text. -/
theorem nextPiece_takes {cps : List Nat} (nonempty : cps ≠ []) :
    0 < nextPiece tables cps ∧ nextPiece tables cps ≤ cps.length := by
  obtain ⟨first, rest, rfl⟩ := List.exists_cons_of_ne_nil nonempty
  unfold nextPiece
  split
  next taken contraction => exact alt1_takes contraction
  next =>
    split
    next taken letters => exact alt2_takes letters
    next letters =>
      split
      next taken number =>
        unfold alt3 at number
        split at number
        next =>
          cases number
          exact ⟨Nat.one_pos, Nat.succ_pos _⟩
        next => cases number
      next number =>
        split
        next taken others => exact alt4_takes others
        next others => exact alt5_takes (isS_of_none letters number others)

end Alternatives

end KairosEngine.Tokenizer
