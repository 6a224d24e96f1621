import KairosEngine.Library.Loop
import KairosEngine.Library.PackedWord
import KairosEngine.Library.Tiling
import KairosEngine.Cuda.MoeCpuExpert

/-!
# The readers of a packed row

Two kernels unpack the four-bit codes of the arena to floats, one weight or eight weights a
thread, and `k_gemv_q4b_dp4a_v2` multiplies them with activations as bytes of words.  The floats
are a parameter; an `int` that does not fit 32 bits has no result.
-/

namespace KairosEngine.Cuda

open KairosEngine.Library

/-- The packed weights of a matrix. -/
structure Q4bArena where
  /-- The address of the first code. -/
  base : Nat
  codes : Nat → UInt8
  rowOff : Nat → Nat
  bscale : Nat → UInt16
  bsNblk : Nat

/-- The bytes from the first of a row on. -/
def Q4bArena.rowCodes (arena : Q4bArena) (j byte : Nat) : UInt8 := arena.codes (arena.rowOff j + byte)

def Q4bArena.blockScale (arena : Q4bArena) (j block : Nat) : UInt16 :=
  arena.bscale (j * arena.bsNblk + block)

/-- A word that is loaded from an aligned address. -/
def wordAt (bytes : Nat → BitVec 8) (start : Nat) : BitVec 32 :=
  wordOf (bytes start) (bytes (start + 1)) (bytes (start + 2)) (bytes (start + 3))

/-! ## The two dequantizers -/

def nibCode (nib : Nat) : Int := ((nib ^^^ 8 : Nat) : Int) - 8

/-- The `code` of `k_dequant_arena_q4b`. -/
def dequantCode (rc : Nat → UInt8) (i : Nat) : Int :=
  let byte := (rc (i >>> 1)).toNat
  nibCode (if i &&& 1 ≠ 0 then (byte >>> 4) &&& 0xF else byte &&& 0xF)

/-- The `w` of `k_dequant_arena_q4b_h8`. -/
def h8Word (arena : Q4bArena) (j i : Nat) : BitVec 32 :=
  let rc := fun byte => (arena.rowCodes j ((i >>> 1) + byte)).toBitVec
  if (arena.base + (arena.rowOff j + (i >>> 1))) &&& 3 = 0 then wordAt rc 0
  else (rc 0).setWidth 32 ||| (rc 1).setWidth 32 <<< 8 ||| (rc 2).setWidth 32 <<< 16 |||
    (rc 3).setWidth 32 <<< 24

/-- The `code` of `k_dequant_arena_q4b_h8`. -/
def h8Code (w : BitVec 32) (k : Nat) : Int :=
  let byte := w >>> (8 * (k >>> 1)) &&& 255#32
  nibCode (if k &&& 1 ≠ 0 then ((byte >>> 4) &&& 0xF).toNat else (byte &&& 0xF).toNat)

section Dequant

variable {Out : Type} (lift : Int → UInt16 → Out) (arena : Q4bArena) (rows cols j : Nat)

/-- A thread of `k_dequant_arena_q4b`: what it writes and where; `lift` scales a code. -/
def kDequantArenaQ4b (i : Nat) : List (Nat × Out) :=
  if j ≥ rows ∨ i ≥ cols then []
  else [(j * cols + i, lift (dequantCode (arena.rowCodes j) i) (arena.blockScale j (i >>> 5)))]

/-- A thread of `k_dequant_arena_q4b_h8`. -/
def kDequantArenaQ4bH8 (thread : Nat) : List (Nat × Out) :=
  let i := thread * 8
  if j ≥ rows ∨ i ≥ cols then []
  else (List.range 8).map fun k =>
    (j * cols + i + k, lift (h8Code (h8Word arena j i) k) (arena.blockScale j (i >>> 5)))

end Dequant

/-! ## The integer product -/

/-- `SPX`. -/
def spx (byte : BitVec 32) (hi : Bool) : BitVec 32 :=
  ((((if hi then byte.sshiftRight 4 else byte) &&& 0xF) ^^^ 0x8) - 0x8) &&& 255#32

/-- `sp_unpack8`. -/
def spUnpack8 (w : BitVec 32) : BitVec 32 × BitVec 32 :=
  let b0 := w &&& 255#32
  let b1 := w.sshiftRight 8 &&& 255#32
  let b2 := w.sshiftRight 16 &&& 255#32
  let b3 := w.sshiftRight 24 &&& 255#32
  (spx b0 false ||| spx b0 true <<< 8 ||| spx b1 false <<< 16 ||| spx b1 true <<< 24,
    spx b2 false ||| spx b2 true <<< 8 ||| spx b3 false <<< 16 ||| spx b3 true <<< 24)

def fits32 (x : Int) : Option Int := if -2 ^ 31 ≤ x ∧ x < 2 ^ 31 then some x else none

/-- `__dp4a`: four products of signed bytes and the accumulator. -/
def dp4a (a b : BitVec 32) (c : Int) : Option Int :=
  fits32 (c + ((List.range 4).map fun k => (byteOf a k).toInt * (byteOf b k).toInt).sum)

structure Int4 where
  x : BitVec 32
  y : BitVec 32
  z : BitVec 32
  w : BitVec 32

def loadInt4 (bytes : Nat → BitVec 8) (index : Nat) : Int4 where
  x := wordAt bytes (16 * index)
  y := wordAt bytes (16 * index + 4)
  z := wordAt bytes (16 * index + 8)
  w := wordAt bytes (16 * index + 12)

/-- The accumulator after one `sp_unpack8` and its two `__dp4a`. -/
def dotUnpacked (w qLow qHigh : BitVec 32) (acc : Int) : Option Int := do
  let (a, b) := spUnpack8 w
  let acc ← dp4a a qLow acc
  dp4a b qHigh acc

/-- `a0` and `a1` of a chunk. -/
def gemvChunk (row : Nat → UInt8) (qx : Nat → Int8) (c : Nat) : Option (Int × Int) := do
  let wv := loadInt4 (fun byte => (row byte).toBitVec) c
  let q0 := loadInt4 (fun i => (qx i).toBitVec) (2 * c)
  let q1 := loadInt4 (fun i => (qx i).toBitVec) (2 * c + 1)
  let a0 ← dotUnpacked wv.x q0.x q0.y 0
  let a0 ← dotUnpacked wv.y q0.z q0.w a0
  let a1 ← dotUnpacked wv.z q1.x q1.y 0
  let a1 ← dotUnpacked wv.w q1.z q1.w a1
  return (a0, a1)

/-- The chunks of a lane, `for (c = lane; c < n32; c += 32)`. -/
def laneChunks (n32 lane : Nat) : List Nat :=
  (strides (by decide : 0 < 32) n32 lane).map Prod.fst

structure GemvFloats (F : Type) where
  zero : F
  add : F → F → F
  mul : F → F → F
  ofInt : Int → F
  /-- `__half2float`. -/
  half : UInt16 → F

section Gemv

variable {F : Type} (floats : GemvFloats F) (arena : Q4bArena) (cols : Nat) (qx : Nat → Int8)
  (sxb : Nat → F) (j : Nat)

/-- What a chunk adds to the sum of its lane. -/
def addChunk (c : Nat) (facc : F) (a0 a1 : Int) : F :=
  floats.add facc (floats.mul (floats.half (arena.blockScale j c))
    (floats.add (floats.mul (floats.ofInt a0) (sxb (2 * c)))
      (floats.mul (floats.ofInt a1) (sxb (2 * c + 1)))))

/-- The `facc` of a lane behind its loop. -/
def laneSum (lane : Nat) : Option F :=
  runEach (fun c facc => (gemvChunk (arena.rowCodes j) qx c).map fun sums =>
    addChunk floats arena sxb j c facc sums.1 sums.2) (laneChunks (cols >>> 5) lane) floats.zero

/-- The sums of the lanes after `__shfl_down_sync`; a lane without one above keeps its own. -/
def shflDown (o : Nat) (facc : Nat → F) (lane : Nat) : F :=
  floats.add (facc lane) (facc (if lane + o < 32 then lane + o else lane))

/-- What lane 0 writes to `y[j]`. -/
def kGemvQ4bDp4aV2 : Option F := do
  let sums ← (List.range 32).mapM fun lane => laneSum floats arena cols qx sxb j lane
  let facc := [16, 8, 4, 2, 1].foldl (fun facc o => shflDown floats o facc)
    fun lane => sums.getD lane floats.zero
  return facc 0

end Gemv

/-! ## One code for every reader -/

theorem nibCode_eq {nib : Nat} (small : nib < 16) : nibCode nib = signedNibble nib := by
  rw [nibCode, xor_eight small]
  exact Int.add_sub_cancel _ _

theorem signedCode_bounds (row : Nat → UInt8) (weight : Nat) :
    -8 ≤ signedCode row weight ∧ signedCode row weight ≤ 7 := by
  apply signedNibble_bounds
  split
  next => exact Nat.mod_lt _ (by decide)
  next => exact Nat.div_lt_of_lt_mul (row (weight / 2)).toNat_lt

/-- The two nibbles of a byte as the readers take them. -/
def byteCode (byte : BitVec 8) (high : Bool) : Int :=
  signedNibble (if high then byte.toNat / 16 else byte.toNat % 16)

theorem signedCode_eq (row : Nat → UInt8) (weight : Nat) :
    signedCode row weight = byteCode (row (weight / 2)).toBitVec (decide (weight % 2 = 1)) := by
  rw [signedCode, byteCode]
  rcases Nat.mod_two_eq_zero_or_one weight with even | odd
  · rw [if_pos even, even]
    rfl
  · rw [if_neg (by omega), odd]
    rfl

theorem dequantCode_eq (rc : Nat → UInt8) (i : Nat) : dequantCode rc i = signedCode rc i := by
  have half : i >>> 1 = i / 2 := Nat.shiftRight_one i
  have parity : i &&& 1 = i % 2 := Nat.and_one_is_mod i
  have high : (rc (i / 2)).toNat >>> 4 = (rc (i / 2)).toNat / 16 := Nat.shiftRight_eq_div_pow _ 4
  have mask (n : Nat) : n &&& 0xF = n % 16 := Nat.and_two_pow_sub_one_eq_mod n 4
  have small : (rc (i / 2)).toNat / 16 < 16 := Nat.div_lt_of_lt_mul (rc (i / 2)).toNat_lt
  rw [dequantCode, signedCode]
  simp only [half, parity, high, mask, Nat.mod_eq_of_lt small]
  rcases Nat.mod_two_eq_zero_or_one i with even | odd
  · rw [if_neg (by omega), if_pos even, nibCode_eq (Nat.mod_lt _ (by decide))]
  · rw [if_pos (by omega), if_neg (by omega), nibCode_eq small]

/-- Aligned or not, eight weights are the word of their four bytes. -/
theorem h8Word_eq (arena : Q4bArena) (j i : Nat) :
    h8Word arena j i = wordAt (fun byte => (arena.rowCodes j (i / 2 + byte)).toBitVec) 0 := by
  have half : i >>> 1 = i / 2 := Nat.shiftRight_one i
  rw [h8Word, half, join_eq_wordOf]
  exact ite_self _

theorem byteOf_wordAt (bytes : Nat → BitVec 8) (start : Nat) {index : Nat} (inside : index < 4) :
    byteOf (wordAt bytes start) index = bytes (start + index) := by
  obtain ⟨atZero, atOne, atTwo, atThree⟩ :=
    byteOf_wordOf (bytes start) (bytes (start + 1)) (bytes (start + 2)) (bytes (start + 3))
  rcases (by omega : index = 0 ∨ index = 1 ∨ index = 2 ∨ index = 3) with rfl | rfl | rfl | rfl
  · exact atZero
  · exact atOne
  · exact atTwo
  · exact atThree

theorem h8Code_eq (w : BitVec 32) (k : Nat) :
    h8Code w k = byteCode (byteOf w (k / 2)) (decide (k % 2 = 1)) := by
  have half : k >>> 1 = k / 2 := Nat.shiftRight_one k
  have parity : k &&& 1 = k % 2 := Nat.and_one_is_mod k
  have all : ∀ byte : BitVec 8,
      nibCode (byte.setWidth 32 >>> 4 &&& 0xF).toNat = byteCode byte true ∧
        nibCode (byte.setWidth 32 &&& 0xF).toNat = byteCode byte false := by decide +kernel
  rw [h8Code, half, parity, ushiftRight_mask]
  rcases Nat.mod_two_eq_zero_or_one k with even | odd
  · rw [even]
    exact (all _).2
  · rw [odd]
    exact (all _).1

/-- Every thread of the eight-weight kernel has the codes of its eight weights. -/
theorem h8Code_row (arena : Q4bArena) (j thread : Nat) {k : Nat} (inside : k < 8) :
    h8Code (h8Word arena j (thread * 8)) k = signedCode (arena.rowCodes j) (thread * 8 + k) := by
  rw [h8Code_eq, h8Word_eq, byteOf_wordAt _ _ (by omega), signedCode_eq]
  have place : (thread * 8 + k) / 2 = thread * 8 / 2 + (0 + k / 2) := by omega
  have parity : (thread * 8 + k) % 2 = k % 2 := by omega
  rw [place, parity]

section Dequant

variable {Out : Type} (lift : Int → UInt16 → Out) (arena : Q4bArena) {rows cols j : Nat}

theorem kDequantArenaQ4b_eq (inRows : j < rows) {i : Nat} (inRow : i < cols) :
    kDequantArenaQ4b lift arena rows cols j i =
      [(j * cols + i, lift (signedCode (arena.rowCodes j) i) (arena.blockScale j (i / 32)))] := by
  rw [kDequantArenaQ4b, if_neg (by omega), dequantCode_eq, Nat.shiftRight_eq_div_pow]

/-- A thread of the eight-weight kernel writes what eight threads of the other write. -/
theorem kDequantArenaQ4bH8_eq (inRows : j < rows) (eights : 8 ∣ cols) {thread : Nat}
    (inRow : thread * 8 < cols) :
    kDequantArenaQ4bH8 lift arena rows cols j thread =
      (List.range 8).flatMap fun k => kDequantArenaQ4b lift arena rows cols j (thread * 8 + k) := by
  rw [kDequantArenaQ4bH8, if_neg (by omega), ← List.flatMap_singleton' (List.map _ _),
    List.flatMap_map]
  apply List.flatMap_congr
  intro k member
  rw [List.mem_range] at member
  have block : (thread * 8 + k) / 32 = thread * 8 / 32 := by omega
  rw [kDequantArenaQ4b_eq lift arena inRows (by omega), h8Code_row arena j thread member,
    Nat.shiftRight_eq_div_pow, block, Nat.add_assoc]

end Dequant

/-! ## The products -/

/-- What the weights from one on add up to. -/
def dot (row : Nat → UInt8) (qx : Nat → Int8) (start count : Nat) : Int :=
  ((List.range count).map fun k => signedCode row (start + k) * (qx (start + k)).toInt).sum

theorem dot_add (row : Nat → UInt8) (qx : Nat → Int8) (start first second : Nat) :
    dot row qx start (first + second) = dot row qx start first + dot row qx (start + first) second := by
  rw [dot, List.range_add, List.map_append, List.sum_append, List.map_map]
  simp only [dot, Function.comp_def, Nat.add_assoc]

/-- The activations are codes of a quantizer with the largest one 127. -/
def Quantized (qx : Nat → Int8) (cols : Nat) : Prop :=
  ∀ i < cols, -127 ≤ (qx i).toInt ∧ (qx i).toInt ≤ 127

theorem dot_bounds {row : Nat → UInt8} {qx : Nat → Int8} {cols start count : Nat}
    (quantized : Quantized qx cols) (inside : start + count ≤ cols) :
    -1016 * (count : Int) ≤ dot row qx start count ∧ dot row qx start count ≤ 1016 * (count : Int) := by
  induction count with
  | zero => exact ⟨Int.le_refl _, Int.le_refl _⟩
  | succ count inductionHypothesis =>
      obtain ⟨low, high⟩ := inductionHypothesis (by omega)
      have code := signedCode_bounds row (start + count)
      have value := @product_bounds (signedCode row (start + count)) _ 8 (by omega)
        (quantized (start + count) (by omega))
      have product : dot row qx (start + count) 1 =
          signedCode row (start + count) * (qx (start + count)).toInt := by simp [dot]
      rw [dot_add, product]
      push_cast
      omega

theorem spx_eq (byte : BitVec 8) (hi : Bool) :
    spx (byte.setWidth 32) hi = (BitVec.ofInt 8 (byteCode byte hi)).setWidth 32 := by
  have all : ∀ byte : BitVec 8, ∀ hi,
      spx (byte.setWidth 32) hi = (BitVec.ofInt 8 (byteCode byte hi)).setWidth 32 := by decide +kernel
  exact all byte hi

theorem byteCode_toInt (byte : BitVec 8) (hi : Bool) :
    (BitVec.ofInt 8 (byteCode byte hi)).toInt = byteCode byte hi := by
  have all : ∀ byte : BitVec 8, ∀ hi,
      (BitVec.ofInt 8 (byteCode byte hi)).toInt = byteCode byte hi := by decide +kernel
  exact all byte hi

/-- The codes of the eight weights of a word, as bytes. -/
def unpackedCode (w : BitVec 32) (k : Nat) : BitVec 8 :=
  BitVec.ofInt 8 (byteCode (byteOf w (k / 2)) (decide (k % 2 = 1)))

theorem spUnpack8_eq (w : BitVec 32) :
    spUnpack8 w = (wordAt (unpackedCode w) 0, wordAt (unpackedCode w) 4) := by
  have b0 : w &&& 255#32 = (byteOf w 0).setWidth 32 := by
    have shifted := sshiftRight_mask w (show 0 < 4 by decide)
    rwa [Nat.mul_zero, BitVec.sshiftRight_zero] at shifted
  have b1 : w.sshiftRight 8 &&& 255#32 = (byteOf w 1).setWidth 32 :=
    sshiftRight_mask w (show 1 < 4 by decide)
  have b2 : w.sshiftRight 16 &&& 255#32 = (byteOf w 2).setWidth 32 :=
    sshiftRight_mask w (show 2 < 4 by decide)
  have b3 : w.sshiftRight 24 &&& 255#32 = (byteOf w 3).setWidth 32 :=
    sshiftRight_mask w (show 3 < 4 by decide)
  simp only [spUnpack8, b0, b1, b2, b3, spx_eq, join_eq_wordOf]
  rfl

/-- One `__dp4a` of four codes with four activations. -/
theorem dp4a_codes {row : Nat → UInt8} {qx : Nat → Int8} {start : Nat} {a : BitVec 32} {c : Int}
    (codes : ∀ k < 4, (byteOf a k).toInt = signedCode row (start + k))
    (low : -2 ^ 31 ≤ c + dot row qx start 4) (high : c + dot row qx start 4 < 2 ^ 31) :
    dp4a a (wordAt (fun i => (qx i).toBitVec) start) c = some (c + dot row qx start 4) := by
  have sums : ((List.range 4).map fun k => (byteOf a k).toInt *
      (byteOf (wordAt (fun i => (qx i).toBitVec) start) k).toInt) =
      (List.range 4).map fun k => signedCode row (start + k) * (qx (start + k)).toInt := by
    apply List.map_congr_left
    intro k member
    rw [List.mem_range] at member
    rw [codes k member, byteOf_wordAt _ _ member]
    rfl
  rw [dp4a, sums, ← dot, fits32, if_pos ⟨low, high⟩]

theorem unpackedCode_row (row : Nat → UInt8) (word : Nat) {k : Nat} (inside : k < 8) :
    (unpackedCode (wordAt (fun byte => (row byte).toBitVec) (4 * word)) k).toInt =
      signedCode row (8 * word + k) := by
  have half : (8 * word + k) / 2 = 4 * word + k / 2 := by omega
  have parity : (8 * word + k) % 2 = k % 2 := by omega
  rw [unpackedCode, byteCode_toInt, byteOf_wordAt _ _ (by omega), signedCode_eq, half, parity]

theorem unpacked_codes (row : Nat → UInt8) (word : Nat) :
    let w := wordAt (fun byte => (row byte).toBitVec) (4 * word)
    (∀ k < 4, (byteOf (spUnpack8 w).1 k).toInt = signedCode row (8 * word + k)) ∧
      ∀ k < 4, (byteOf (spUnpack8 w).2 k).toInt = signedCode row (8 * word + 4 + k) := by
  intro w
  rw [spUnpack8_eq]
  constructor
  · intro k inside
    rw [byteOf_wordAt _ _ inside, Nat.zero_add]
    exact unpackedCode_row row word (by omega)
  · intro k inside
    rw [byteOf_wordAt _ _ inside, Nat.add_assoc]
    exact unpackedCode_row row word (by omega)

/-- One unpacked word adds its eight products. -/
theorem dotUnpacked_eq {row : Nat → UInt8} {qx : Nat → Int8} {cols word : Nat} {acc : Int}
    (quantized : Quantized qx cols) (inside : 8 * word + 8 ≤ cols)
    (low : -2 ^ 16 ≤ acc) (high : acc ≤ 2 ^ 16) :
    dotUnpacked (wordAt (fun byte => (row byte).toBitVec) (4 * word))
        (wordAt (fun i => (qx i).toBitVec) (8 * word))
        (wordAt (fun i => (qx i).toBitVec) (8 * word + 4)) acc =
      some (acc + dot row qx (8 * word) 8) := by
  obtain ⟨lows, highs⟩ := unpacked_codes row word
  obtain ⟨firstLow, firstHigh⟩ :=
    @dot_bounds row qx cols (8 * word) 4 quantized (by omega)
  obtain ⟨secondLow, secondHigh⟩ :=
    @dot_bounds row qx cols (8 * word + 4) 4 quantized (by omega)
  have whole : dot row qx (8 * word) 8 = dot row qx (8 * word) 4 + dot row qx (8 * word + 4) 4 :=
    dot_add row qx (8 * word) 4 4
  rw [whole, ← Int.add_assoc]
  simp only [dotUnpacked, Option.bind_eq_bind]
  rw [dp4a_codes lows (by omega) (by omega), Option.bind_some,
    dp4a_codes highs (by omega) (by omega)]

/-- The sums of a chunk, over its first and its second 16 weights. -/
theorem gemvChunk_eq {row : Nat → UInt8} {qx : Nat → Int8} {cols c : Nat}
    (quantized : Quantized qx cols) (inside : 32 * c + 32 ≤ cols) :
    gemvChunk row qx c = some (dot row qx (32 * c) 16, dot row qx (32 * c + 16) 16) := by
  have word (place : Nat) {bytes low high : Nat} {acc : Int} (below : place < 4)
      (bytesAt : bytes = 4 * (4 * c + place)) (lowAt : low = 8 * (4 * c + place))
      (highAt : high = 8 * (4 * c + place) + 4) (above : -2 ^ 16 ≤ acc) (small : acc ≤ 2 ^ 16) :
      dotUnpacked (wordAt (fun byte => (row byte).toBitVec) bytes)
          (wordAt (fun i => (qx i).toBitVec) low) (wordAt (fun i => (qx i).toBitVec) high) acc =
        some (acc + dot row qx low 8) := by
    rw [bytesAt, lowAt, highAt]
    exact dotUnpacked_eq quantized (by omega) above small
  have bounds (start : Nat) (within : start + 8 ≤ cols) :=
    @dot_bounds row qx cols start 8 quantized within
  have first := bounds (32 * c) (by omega)
  have third := bounds (32 * c + 16) (by omega)
  have firstHalf : dot row qx (32 * c) 16 = 0 + dot row qx (32 * c) 8 + dot row qx (32 * c + 8) 8 := by
    rw [Int.zero_add]
    exact dot_add row qx (32 * c) 8 8
  have secondHalf : dot row qx (32 * c + 16) 16 =
      0 + dot row qx (32 * c + 16) 8 + dot row qx (32 * c + 24) 8 := by
    rw [Int.zero_add]
    exact dot_add row qx (32 * c + 16) 8 8
  have second : 16 * (2 * c) = 32 * c := by omega
  have fourth : 16 * (2 * c + 1) = 32 * c + 16 := by omega
  rw [firstHalf, secondHalf]
  simp only [gemvChunk, loadInt4, second, fourth, Option.bind_eq_bind]
  rw [word 0 (by decide) (by omega) (by omega) (by omega) (by decide) (by decide), Option.bind_some,
    word 1 (by decide) (by omega) (by omega) (by omega) (by omega) (by omega), Option.bind_some,
    word 2 (by decide) (by omega) (by omega) (by omega) (by decide) (by decide), Option.bind_some,
    word 3 (by decide) (by omega) (by omega) (by omega) (by omega) (by omega), Option.bind_some]
  rfl

theorem mem_laneChunks {n32 lane c : Nat} (member : c ∈ laneChunks n32 lane) : c < n32 :=
  (mem_starts.mp member).2.1

section Gemv

variable {F : Type} (floats : GemvFloats F) (arena : Q4bArena) {cols : Nat} {qx : Nat → Int8}
  (sxb : Nat → F) (j : Nat)

/-- The sum of a lane with the integers exact. -/
def exactLaneSum (cols : Nat) (qx : Nat → Int8) (lane : Nat) : F :=
  (laneChunks (cols >>> 5) lane).foldl (fun facc c =>
    addChunk floats arena sxb j c facc (dot (arena.rowCodes j) qx (32 * c) 16)
      (dot (arena.rowCodes j) qx (32 * c + 16) 16)) floats.zero

theorem laneSum_eq (quantized : Quantized qx cols) (lane : Nat) :
    laneSum floats arena cols qx sxb j lane = some (exactLaneSum floats arena sxb j cols qx lane) := by
  have chunks : ∀ c ∈ laneChunks (cols >>> 5) lane, 32 * c + 32 ≤ cols := by
    intro c member
    have below := mem_laneChunks member
    rw [Nat.shiftRight_eq_div_pow] at below
    omega
  unfold laneSum exactLaneSum
  revert chunks
  generalize laneChunks (cols >>> 5) lane = todo
  generalize floats.zero = facc
  intro chunks
  induction todo generalizing facc with
  | nil => rfl
  | cons c rest inductionHypothesis =>
      rw [List.forall_mem_cons] at chunks
      rw [runEach, gemvChunk_eq quantized chunks.1, Option.map_some, Option.bind_some,
        List.foldl_cons]
      exact inductionHypothesis _ chunks.2

/-- The integers in the result of a row are exact, whatever the floats are. -/
theorem kGemvQ4bDp4aV2_eq (quantized : Quantized qx cols) :
    kGemvQ4bDp4aV2 floats arena cols qx sxb j =
      some ([16, 8, 4, 2, 1].foldl (fun facc o => shflDown floats o facc)
        (fun lane => ((List.range 32).map (exactLaneSum floats arena sxb j cols qx)).getD lane
          floats.zero) 0) := by
  have lanes : (fun lane => laneSum floats arena cols qx sxb j lane) =
      fun lane => pure (exactLaneSum floats arena sxb j cols qx lane) :=
    funext (laneSum_eq floats arena sxb j quantized)
  rw [kGemvQ4bDp4aV2, lanes, List.mapM_pure]
  rfl

end Gemv

/-- All readers of a row see one code for each weight, and the sums of the product are those of
the codes. -/
theorem q4b_readers_agree (arena : Q4bArena) (cols j : Nat) (whole : 32 ∣ cols) (qx : Nat → Int8)
    (quantized : ∀ i < cols, -127 ≤ (qx i).toInt ∧ (qx i).toInt ≤ 127) :
    let code := signedCode (arena.rowCodes j)
    (∀ i, -8 ≤ code i ∧ code i ≤ 7) ∧
      (∀ (Out : Type) (lift : Int → UInt16 → Out), ∀ rows > j, ∀ i < cols,
        kDequantArenaQ4b lift arena rows cols j i =
          [(j * cols + i, lift (code i) (arena.blockScale j (i / 32)))]) ∧
      (∀ (Out : Type) (lift : Int → UInt16 → Out), ∀ rows > j, ∀ thread, thread * 8 < cols →
        kDequantArenaQ4bH8 lift arena rows cols j thread =
          (List.range 8).flatMap fun k =>
            kDequantArenaQ4b lift arena rows cols j (thread * 8 + k)) ∧
      (∀ c < cols / 32, gemvChunk (arena.rowCodes j) qx c =
        some (((List.range 16).map fun k => code (32 * c + k) * (qx (32 * c + k)).toInt).sum,
          ((List.range 16).map fun k =>
            code (32 * c + 16 + k) * (qx (32 * c + 16 + k)).toInt).sum)) ∧
      ∀ c < cols / 32, ∃ lane, (lane < 32 ∧ (laneChunks (cols >>> 5) lane).count c = 1) ∧
        ∀ other, other < 32 → c ∈ laneChunks (cols >>> 5) other → other = lane := by
  have chunks : cols >>> 5 = cols / 32 := Nat.shiftRight_eq_div_pow cols 5
  have eights : 8 ∣ cols := Nat.dvd_trans (by decide) whole
  refine ⟨signedCode_bounds _, ?_, ?_, ?_, ?_⟩
  · intro Out lift rows inRows i inRow
    exact kDequantArenaQ4b_eq lift arena inRows inRow
  · intro Out lift rows inRows thread inRow
    exact kDequantArenaQ4bH8_eq lift arena inRows eights inRow
  · intro c below
    exact gemvChunk_eq quantized (by omega)
  · intro c below
    rw [← chunks] at below
    obtain ⟨lane, ⟨inWarp, visits⟩, only⟩ := @existsUnique_start 32 (by decide) _ c below
    exact ⟨lane, ⟨inWarp, List.count_eq_one_of_mem starts_nodup visits⟩,
      fun other small member => only other ⟨small, member⟩⟩

/-- One row of 32 weights whose bytes are their own indices, at an odd address. -/
def indexArena : Q4bArena where
  base := 1
  codes := UInt8.ofNat
  rowOff := fun _ => 0
  bscale := fun _ => 0
  bsNblk := 1

theorem q4b_readers_agree_index :
    gemvChunk (indexArena.rowCodes 0) (fun _ => 127) 0 = some (3556, -4572) := by
  have sums := (q4b_readers_agree indexArena 32 0 (by decide) (fun _ => 127) (by decide)).2.2.2.1
  rw [sums 0 (by decide)]
  decide +kernel

end KairosEngine.Cuda
