import Mathlib.Data.List.Basic
import KairosEngine.Library.Precedence
import KairosEngine.Cuda.BatchedGemm

/-!
# The double buffer of the diffusion experts

`dg_prefetch_rows` copies the packed rows of the next expert over a pinned buffer into one of four
slots, on a stream of its own; `dg_gemm_packed_rows` multiplies with the rows of an expert, from the
resident cache, from a slot or from a fresh upload.  Host calls are serial; the device runs what was
queued between them.
-/

namespace KairosEngine.Cuda

open KairosEngine.Library Device

/-! ## Packed rows -/

/-- The members of `sp_frob_packed_tensor` that a slice is made of. -/
structure FrobTensor where
  rows : Nat
  rowPrec : Nat → Nat
  rowOff : Nat → Nat
  codes : Nat → UInt8
  codesBytes : Nat
  hasBscale : Bool
  bscale : Nat → UInt16
  bsNblk : Nat

/-- The three arrays of a slot. -/
inductive DgArray
  | codes | rowOff | bscale
  deriving DecidableEq

abbrev DgCell : DgArray → Type
  | .codes => UInt8
  | .rowOff => Nat
  | .bscale => UInt16

/-- The contents of the arrays, in a pinned buffer or on the device. -/
abbrev DgBuffers := (array : DgArray) → Nat → DgCell array

/-- `memcpy` of the first elements of an array. -/
def DgBuffers.copy (array : DgArray) (count : Nat) (source target : DgBuffers) : DgBuffers :=
  fun other i => if other = array ∧ i < count then source other i else target other i

namespace FrobTensor

variable (s : FrobTensor) (r0 rows inputs : Nat)

/-- The end of the last row of a slice. -/
def sliceEnd : Nat := s.rowOff (r0 + rows - 1) + (inputs + 1) / 2

def span : Nat := s.sliceEnd r0 rows inputs - s.rowOff r0

/-- What a slice copies, rebased to its first code. -/
def slice : DgBuffers
  | .codes => fun i => s.codes (s.rowOff r0 + i)
  | .rowOff => fun r => s.rowOff (r0 + r) - s.rowOff r0
  | .bscale => fun i => s.bscale (r0 * s.bsNblk + i)

/-- The elements of the arrays of a slice. -/
def sizes (codes : Nat) : DgArray → Nat
  | .codes => codes
  | .rowOff => rows
  | .bscale => rows * s.bsNblk

/-- The rows where they are in the tensor. -/
def rowsOf : DevTensor where
  arena :=
    { base := 0
      codes := s.codes
      rowOff := fun r => s.rowOff (r0 + r)
      bscale := fun i => s.bscale (r0 * s.bsNblk + i)
      bsNblk := s.bsNblk }
  inputs
  out := rows
  prec := 4
  hasBscale := s.hasBscale

end FrobTensor

/-- What a slot holds besides its arrays. -/
structure DgScalars where
  inputs : Nat
  out : Nat
  bsNblk : Nat

/-- The `DevTensor` over these arrays. -/
def DgScalars.tensor (scalars : DgScalars) (buffers : DgBuffers) : DevTensor where
  arena :=
    { base := 0
      codes := buffers .codes
      rowOff := buffers .rowOff
      bscale := buffers .bscale
      bsNblk := scalars.bsNblk }
  inputs := scalars.inputs
  out := scalars.out
  prec := 4
  hasBscale := true

/-- The weights that `gemm_w` unpacks in front of the product: where, the code and its scale. -/
def gemmWeights (W : DevTensor) : List (Nat × Int × UInt16) :=
  (List.range W.out).flatMap fun j => (List.range ((W.inputs + 255) / 256 * 256)).flatMap fun i =>
    kDequantArenaQ4b Prod.mk W.arena W.out W.inputs j i

/-! ## The machine -/

inductive DgStream
  | upload | compute
  deriving DecidableEq

/-- A tensor and the first row of a slice of it. -/
structure SliceName where
  name : List Char
  r0 : Nat

/-- `"%s#%d"`. -/
def SliceName.key (slice : SliceName) : List Char := slice.name ++ '#' :: Nat.toDigits 10 slice.r0

/-- What `snprintf` leaves in the 176 bytes for it. -/
def SliceName.keyBuffer (slice : SliceName) : List Char := slice.key.take 175

inductive DgWork
  | upload (slot : Fin 4) (array : DgArray) (count : Nat)
  /-- A product with the weights in a slot, and for which slice it is. -/
  | gemmSlot (slot : Fin 4) (scalars : DgScalars) (slice : SliceName)
  /-- A product with weights that have buffers of their own. -/
  | gemmOwn (W : DevTensor) (slice : SliceName)
  | other

/-- `dg_pf_slot_t`; an event that was recorded is the ticket of its last record. -/
structure DgSlot where
  key : List Char
  valid : Bool
  inited : Bool
  dt : DgScalars
  /-- The elements that were allocated for the arrays. -/
  room : DgArray → Nat
  pinCap : Nat
  upEv : Option Nat
  consEv : Option Nat

structure DgRead where
  slice : SliceName
  found : List (Nat × Int × UInt16)

structure DgPrefetch where
  slots : Fin 4 → DgSlot
  /-- `dg_pf_rr`. -/
  rr : Fin 2 → Nat
  /-- `dg_wc_tab`. -/
  wcache : List (List Char × DevTensor)
  pin : Fin 4 → DgBuffers
  memory : Fin 4 → DgBuffers
  device : Device DgStream DgWork
  /-- What the products found that have run. -/
  reads : List DgRead

/-- What a process fixes.  The callers slice a tensor by the rows of an expert, and have one kind
for it. -/
structure DgEnv where
  /-- `SP_DG_ASYNC`, and the upload stream could be created. -/
  async : Bool
  wcache : Bool
  arena : List Char → Option FrobTensor
  rows : List Char → Nat
  inputs : List Char → Nat
  kind : List Char → Fin 2

def emptySlot : DgSlot where
  key := []
  valid := false
  inited := false
  dt := ⟨0, 0, 0⟩
  room := fun _ => 0
  pinCap := 0
  upEv := none
  consEv := none

namespace DgPrefetch

def boot (pin memory : Fin 4 → DgBuffers) : DgPrefetch where
  slots := fun _ => emptySlot
  rr := fun _ => 0
  wcache := []
  pin := pin
  memory := memory
  device := Device.empty
  reads := []

/-! ## `dg_prefetch_rows` -/

theorem slotOf_lt (kind : Fin 2) (turn : Nat) : 2 * kind.val + turn % 2 < 4 := by omega

/-- `base + (dg_pf_rr[kind] & 1)`. -/
def slotOf (kind : Fin 2) (turn : Nat) : Fin 4 := ⟨2 * kind.val + turn % 2, slotOf_lt kind turn⟩

/-- The pinned buffer is filled, and its copies are queued. -/
def fill (pf : DgPrefetch) (slot : Fin 4) (s : FrobTensor) (slice : SliceName) (rows inputs : Nat) :
    DgPrefetch :=
  let span := s.span slice.r0 rows inputs
  let S := pf.slots slot
  let copied := fun array => DgBuffers.copy array (s.sizes rows span array) (s.slice slice.r0)
  let device := match S.consEv with
    | some event => pf.device.wait .upload (some event)
    | none => pf.device
  let device := ((device.launch .upload (.upload slot .codes span)).launch .upload
    (.upload slot .rowOff rows)).launch .upload (.upload slot .bscale (rows * s.bsNblk))
  { pf with
    slots := Function.update pf.slots slot
      { S with
        key := slice.keyBuffer, valid := true, upEv := some device.ticket
        dt := ⟨inputs, rows, s.bsNblk⟩ }
    pin := Function.update pf.pin slot
      (copied .bscale (copied .rowOff (copied .codes (pf.pin slot))))
    device := device.record .upload }

/-- The tensor, where its rows can be prefetched. -/
def prefetchable (env : DgEnv) (slice : SliceName) : Option FrobTensor :=
  let rows := env.rows slice.name
  let inputs := env.inputs slice.name
  if !env.async then none
  else
    match env.arena slice.name with
    | none => none
    | some s =>
        if rows = 0 ∨ slice.r0 + rows > s.rows then none
        else if inputs &&& 31 ≠ 0 then none
        else if (List.range' slice.r0 rows).any fun r => s.rowPrec r ≠ 4 then none
        else if s.rowOff slice.r0 + s.span slice.r0 rows inputs > s.codesBytes then none
        else some s

/-- The slot with its allocations, where it can take the slice. -/
def prefetchSlot (env : DgEnv) (slice : SliceName) (s : FrobTensor) (allocates : Bool) (S : DgSlot) :
    Option DgSlot :=
  let rows := env.rows slice.name
  let span := s.span slice.r0 rows (env.inputs slice.name)
  let bsc := if s.hasBscale then rows * s.bsNblk * 2 else 0
  let needPin := span + rows * 8 + bsc
  if S.valid then none
  else if bsc = 0 then none
  else if S.inited then if needPin > S.pinCap then none else some S
  else if allocates then
    some { S with room := s.sizes rows span, pinCap := needPin, inited := true }
  else none

/-- With whether the allocations of a slot succeed; none while `cudaEventSynchronize` waits. -/
def prefetchRows (env : DgEnv) (slice : SliceName) (allocates : Bool) (pf : DgPrefetch) :
    Option DgPrefetch :=
  match prefetchable env slice with
  | none => some pf
  | some s =>
      let kind := env.kind slice.name
      let slot := slotOf kind (pf.rr kind)
      let rr := Function.update pf.rr kind (pf.rr kind + 1)
      match prefetchSlot env slice s allocates (pf.slots slot) with
      | none => some { pf with rr }
      | some S =>
          if S.upEv.all fun event => event ∈ pf.device.ran then
            some ({ pf with rr, slots := Function.update pf.slots slot S }.fill slot s slice
              (env.rows slice.name) (env.inputs slice.name))
          else none

/-! ## `dg_gemm_packed_rows` -/

/-- The product is queued; `dg_pf_mark_consumed` records behind it. -/
def consumed (pf : DgPrefetch) (slot : Fin 4) (scalars : DgScalars) (slice : SliceName) :
    DgPrefetch :=
  let device := pf.device.launch .compute (.gemmSlot slot scalars slice)
  { pf with
    slots := Function.update pf.slots slot { pf.slots slot with consEv := some device.ticket }
    device := device.record .compute }

/-- `dg_pf_consume`, with the slot it finds. -/
def consume (pf : DgPrefetch) (slot : Fin 4) : DgPrefetch :=
  { pf with
    slots := Function.update pf.slots slot { pf.slots slot with valid := false }
    device := pf.device.wait .compute (pf.slots slot).upEv }

/-- `upload_packed` of a slice, into buffers that hold anything. -/
def uploadPacked (s : FrobTensor) (slice : SliceName) (rows inputs : Nat) (fresh : DgBuffers) :
    DevTensor :=
  let off0 := s.rowOff slice.r0
  let span := s.span slice.r0 rows inputs
  let span := if off0 + span > s.codesBytes then s.codesBytes - off0 else span
  let copied := fun array => DgBuffers.copy array (s.sizes rows span array) (s.slice slice.r0)
  { DgScalars.tensor ⟨inputs, rows, s.bsNblk⟩ (copied .bscale (copied .rowOff (copied .codes fresh)))
    with hasBscale := s.hasBscale }

/-- With whether there is scratch, what the fresh buffers hold, and whether `dg_wcache_insert` has
the memory; 2 sends the caller to the path without packed weights. -/
def gemmPackedRows (env : DgEnv) (slice : SliceName) (scratch : Bool) (fresh : DgBuffers)
    (room : Bool) (pf : DgPrefetch) : DgPrefetch × Nat :=
  let key := slice.keyBuffer
  let rows := env.rows slice.name
  let inputs := env.inputs slice.name
  match if env.wcache then pf.wcache.lookup key else none with
  | some W =>
      if scratch then ({ pf with device := pf.device.launch .compute (.gemmOwn W slice) }, 0)
      else (pf, 1)
  | none =>
      let hit := (List.finRange 4).find? fun slot =>
        (pf.slots slot).valid && decide ((pf.slots slot).key = key)
      match if env.async then hit else none with
      | some slot =>
          if scratch then ((pf.consume slot).consumed slot (pf.slots slot).dt slice, 0)
          else (pf.consume slot, 1)
      | none =>
          match env.arena slice.name with
          | none => (pf, 1)
          | some s =>
              if rows = 0 ∨ slice.r0 + rows > s.rows then (pf, 1)
              else if inputs &&& 31 ≠ 0 then (pf, 2)
              else if (List.range' slice.r0 rows).any fun r => s.rowPrec r ≠ 4 then (pf, 2)
              else if !scratch then (pf, 1)
              else
                let W := uploadPacked s slice rows inputs fresh
                let kept := env.wcache && decide (key.length < 160) && room
                ({ pf with
                  device := pf.device.launch .compute (.gemmOwn W slice)
                  wcache := if kept then pf.wcache ++ [(key, W)] else pf.wcache }, 0)

/-! ## The device -/

/-- What an operation does to the slots. -/
def written (pf : DgPrefetch) (index : Nat) : Fin 4 → DgBuffers :=
  match pf.device.log[index]?.bind (·.work) with
  | some (.upload slot array count) =>
      Function.update pf.memory slot (DgBuffers.copy array count (pf.pin slot) (pf.memory slot))
  | _ => pf.memory

/-- The weights that a product finds when it runs. -/
def readsOf (pf : DgPrefetch) (index : Nat) : List DgRead :=
  match pf.device.log[index]?.bind (·.work) with
  | some (.gemmSlot slot scalars slice) =>
      [⟨slice, gemmWeights (scalars.tensor (pf.memory slot))⟩]
  | some (.gemmOwn W slice) => [⟨slice, gemmWeights W⟩]
  | _ => []

def complete (pf : DgPrefetch) (index : Nat) : DgPrefetch :=
  { pf with
    device := pf.device.run index
    memory := pf.written index
    reads := pf.reads ++ pf.readsOf index }

end DgPrefetch

/-- A host call, or a step of the device. -/
inductive DgStep (env : DgEnv) (pf : DgPrefetch) : DgPrefetch → Prop
  | prefetch {next : DgPrefetch} (slice : SliceName) (allocates : Bool)
      (passes : pf.prefetchRows env slice allocates = some next) : DgStep env pf next
  | gemm (slice : SliceName) (scratch : Bool) (fresh : DgBuffers) (room : Bool) :
      DgStep env pf (pf.gemmPackedRows env slice scratch fresh room).1
  /-- The rest of the forward. -/
  | other : DgStep env pf { pf with device := pf.device.launch .compute .other }
  | run (index : Nat) (ready : pf.device.runnable index = true) : DgStep env pf (pf.complete index)

inductive DgReached (env : DgEnv) (pin memory : Fin 4 → DgBuffers) : DgPrefetch → Prop
  | boot : DgReached env pin memory (.boot pin memory)
  | step {pf next : DgPrefetch} (reached : DgReached env pin memory pf) (step : DgStep env pf next) :
      DgReached env pin memory next

/-! ## What the callers give -/

/-- A slice that `dg_gemm_packed_rows` accepts. -/
structure DgEnv.Within (env : DgEnv) (slice : SliceName) (s : FrobTensor) : Prop where
  known : env.arena slice.name = some s
  some : 0 < env.rows slice.name
  inside : slice.r0 + env.rows slice.name ≤ s.rows

def DgEnv.sizes (env : DgEnv) (slice : SliceName) (s : FrobTensor) : DgArray → Nat :=
  s.sizes (env.rows slice.name) (s.span slice.r0 (env.rows slice.name) (env.inputs slice.name))

/-- Tensors of packed rows with a scale for each block, whose names fit the keys, and whose slices
have one size for each kind. -/
structure DgEnv.Packed (env : DgEnv) (shape : Fin 2 → DgArray → Nat) : Prop where
  ascending : ∀ name s, env.arena name = some s → ∀ r later, r ≤ later → later < s.rows →
    s.rowOff r ≤ s.rowOff later
  inside : ∀ name s, env.arena name = some s → ∀ r < s.rows,
    s.rowOff r + (env.inputs name + 1) / 2 ≤ s.codesBytes
  scaled : ∀ name s, env.arena name = some s → env.inputs name ≤ 32 * s.bsNblk
  named : ∀ slice s, env.Within slice s → slice.key.length ≤ 175
  sizes : ∀ slice s, env.Within slice s → env.sizes slice s = shape (env.kind slice.name)

/-- The weights of the rows where they are in the tensor. -/
def DgEnv.Right (env : DgEnv) (slice : SliceName) (found : List (Nat × Int × UInt16)) : Prop :=
  ∀ s, env.Within slice s →
    found = gemmWeights (s.rowsOf slice.r0 (env.rows slice.name) (env.inputs slice.name))

theorem notMem_toDigits (n : Nat) : '#' ∉ Nat.toDigits 10 n := by
  intro member
  exact Bool.false_ne_true (Nat.isDigit_of_mem_toDigits (by decide) (by decide) member)

theorem SliceName.key_injective : Function.Injective SliceName.key := by
  rintro ⟨name, r0⟩ ⟨other, r1⟩ same
  have reversed := congrArg List.reverse same
  simp only [key, List.reverse_append, List.reverse_cons, List.append_assoc,
    List.singleton_append] at reversed
  -- The last separator is in front of the digits.
  have place : ∀ (n : Nat) (rest : List Char),
      ((Nat.toDigits 10 n).reverse ++ '#' :: rest).idxOf '#' = (Nat.toDigits 10 n).reverse.length := by
    intro n rest
    rw [List.idxOf_append_of_notMem fun member => notMem_toDigits n (List.mem_reverse.mp member),
      List.idxOf_cons_self, Nat.add_zero]
  have lengths := congrArg (List.idxOf '#') reversed
  rw [place, place] at lengths
  obtain ⟨digits, names⟩ := List.append_inj reversed lengths
  have first : r0 = r1 := by
    have values := congrArg (Nat.ofDigitChars 10 · 0) (List.reverse_injective digits)
    simpa only [Nat.ofDigitChars_toDigits (by decide : 1 < 10) (Nat.le_refl 10)] using values
  rw [first, List.reverse_injective (List.cons_inj_right _ |>.mp names)]

section Keys

variable {env : DgEnv} {shape : Fin 2 → DgArray → Nat} {slice other : SliceName} {s t : FrobTensor}

/-- A key names one slice. -/
theorem DgEnv.Packed.slice_eq (packed : env.Packed shape) (within : env.Within slice s)
    (otherWithin : env.Within other t) (same : slice.keyBuffer = other.keyBuffer) :
    slice = other := by
  rw [SliceName.keyBuffer, SliceName.keyBuffer, List.take_of_length_le (packed.named _ _ within),
    List.take_of_length_le (packed.named _ _ otherWithin)] at same
  exact SliceName.key_injective same

theorem DgEnv.Right.of_key (packed : env.Packed shape) (within : env.Within slice s)
    {found : List (Nat × Int × UInt16)} (right : env.Right slice found)
    (same : slice.keyBuffer = other.keyBuffer) : env.Right other found := by
  intro t otherWithin
  obtain rfl := packed.slice_eq within otherWithin same
  exact right t otherWithin

/-! ## What a product finds in copied arrays -/

theorem gemmWeights_congr {W V : DevTensor} (inputs : W.inputs = V.inputs) (out : W.out = V.out)
    (same : ∀ j < V.out, ∀ i < V.inputs,
      dequantCode (W.arena.rowCodes j) i = dequantCode (V.arena.rowCodes j) i ∧
        W.arena.blockScale j (i >>> 5) = V.arena.blockScale j (i >>> 5)) :
    gemmWeights W = gemmWeights V := by
  unfold gemmWeights
  rw [inputs, out]
  apply List.flatMap_congr
  intro j row
  apply List.flatMap_congr
  intro i _
  unfold kDequantArenaQ4b
  split
  next => rfl
  next inside =>
    rw [not_or, Nat.not_le, Nat.not_le] at inside
    obtain ⟨codes, scale⟩ := same j inside.1 i inside.2
    rw [codes, scale]

/-- Arrays that start with the slice hold its rows. -/
theorem DgEnv.right_of_copied (packed : env.Packed shape) (within : env.Within slice s)
    {buffers : DgBuffers}
    (copied : ∀ array, ∀ i < env.sizes slice s array, buffers array i = s.slice slice.r0 array i) :
    env.Right slice (gemmWeights
      (DgScalars.tensor ⟨env.inputs slice.name, env.rows slice.name, s.bsNblk⟩ buffers)) := by
  intro t otherWithin
  obtain rfl : s = t := Option.some.inj (within.known.symm.trans otherWithin.known)
  have inside := within.inside
  have positive := within.some
  refine gemmWeights_congr rfl rfl fun j row i column => ⟨?_, ?_⟩
  · have rowStart : buffers .rowOff j = s.rowOff (slice.r0 + j) - s.rowOff slice.r0 :=
      copied .rowOff j row
    have above := packed.ascending _ _ within.known slice.r0 (slice.r0 + j) (by omega)
      (by have : j < env.rows slice.name := row; omega)
    have below := packed.ascending _ _ within.known (slice.r0 + j)
      (slice.r0 + env.rows slice.name - 1) (by have : j < env.rows slice.name := row; omega)
      (by omega)
    have half : i >>> 1 < (env.inputs slice.name + 1) / 2 := by
      have : i < env.inputs slice.name := column
      rw [Nat.shiftRight_eq_div_pow]
      omega
    have byte : buffers .codes (buffers .rowOff j + i >>> 1) =
        s.codes (s.rowOff (slice.r0 + j) + i >>> 1) := by
      rw [rowStart, copied .codes _ (by
        change _ < s.sliceEnd _ _ _ - _
        unfold FrobTensor.sliceEnd
        omega)]
      change s.codes _ = _
      congr 1
      omega
    unfold dequantCode
    exact congrArg (fun byte : UInt8 => nibCode (if i &&& 1 ≠ 0 then (byte.toNat >>> 4) &&& 0xF
      else byte.toNat &&& 0xF)) byte
  · have block : i >>> 5 < s.bsNblk := by
      have scaled := packed.scaled _ _ within.known
      have : i < env.inputs slice.name := column
      rw [Nat.shiftRight_eq_div_pow]
      omega
    refine copied .bscale _ ?_
    change _ < env.rows slice.name * s.bsNblk
    have rowEnd := Nat.mul_le_mul_right s.bsNblk (Nat.succ_le_of_lt row)
    change (j + 1) * s.bsNblk ≤ env.rows slice.name * s.bsNblk at rowEnd
    rw [Nat.add_mul, Nat.one_mul] at rowEnd
    change j * s.bsNblk + i >>> 5 < _
    omega

end Keys

/-! ## The invariant of a slot -/

/-- The place of a copy among those of its round. -/
def DgArray.turn : DgArray → Nat
  | .codes => 0
  | .rowOff => 1
  | .bscale => 2

/-- A copy into the slot, or a product with what it holds. -/
def DgWork.uses (slot : Fin 4) : DgWork → Prop
  | .upload target _ _ => target = slot
  | .gemmSlot source _ _ => source = slot
  | _ => False

/-- A product with what the slot holds is queued, and has not run. -/
structure Waits (device : Device DgStream DgWork) (slot : Fin 4) (ticket : Nat)
    (scalars : DgScalars) (slice : SliceName) : Prop where
  queued : ∃ stream after,
    device.log[ticket]? = some ⟨stream, some (.gemmSlot slot scalars slice), after⟩
  later : ticket ∉ device.ran

/-- The copies that went to the slot last, from a ticket on; all before them have run.  Products
that wait run in front of them all, and find what they ask for now, or behind them all, and ask for
what they bring. -/
structure DgRound (env : DgEnv) (device : Device DgStream DgWork) (slot : Fin 4) (S : DgSlot)
    (pin memory : DgBuffers) (first : Nat) (slice : SliceName) (s : FrobTensor) : Prop where
  within : env.Within slice s
  key : S.key = slice.keyBuffer
  dt : S.dt = ⟨env.inputs slice.name, env.rows slice.name, s.bsNblk⟩
  queued : ∀ array, device.log[first + array.turn]? =
    some ⟨.upload, some (.upload slot array (env.sizes slice s array)), none⟩
  marked : device.log[first + 3]? = some ⟨.upload, none, none⟩
  last : ∀ i stream array count after,
    device.log[i]? = some ⟨stream, some (.upload slot array count), after⟩ →
      i ∈ device.ran ∨ ∃ array : DgArray, i = first + array.turn
  pin : ∀ array, ∀ i < env.sizes slice s array, pin array i = s.slice slice.r0 array i
  landed : ∀ array : DgArray, first + array.turn ∈ device.ran →
    ∀ i < env.sizes slice s array, memory array i = s.slice slice.r0 array i
  covered : ∀ g scalars other, Waits device slot g scalars other →
    ∃ event, S.consEv = some event ∧ device.Covered event g
  waits : ∀ g scalars other, Waits device slot g scalars other →
    (∀ array : DgArray, device.Precedes g (first + array.turn)) ∧
        env.Right other (gemmWeights (scalars.tensor memory)) ∨
      (∀ array : DgArray, first + array.turn ∈ device.ran ∨ device.Precedes (first + array.turn) g) ∧
        scalars = S.dt ∧ other.keyBuffer = S.key

/-- Nothing was ever copied to the slot, or a round was the last one. -/
def SlotInv (env : DgEnv) (device : Device DgStream DgWork) (slot : Fin 4) (S : DgSlot)
    (pin memory : DgBuffers) : Prop :=
  match S.upEv with
  | none => S.valid = false ∧ ∀ (i : Nat) (stream : DgStream) (work : DgWork) (after : Option Nat),
      device.log[i]? = some ⟨stream, some work, after⟩ → ¬work.uses slot
  | some event => ∃ first slice s, event = first + 3 ∧
      DgRound env device slot S pin memory first slice s

section Frames

variable {env : DgEnv} {shape : Fin 2 → DgArray → Nat} {device : Device DgStream DgWork}
  {slot : Fin 4} {S : DgSlot} {pin memory : DgBuffers} {operations : List (Issued DgStream DgWork)}
  {first g : Nat} {scalars : DgScalars} {slice other : SliceName} {s : FrobTensor}

/-- What is issued and has nothing to do with the slot. -/
def Elsewhere (slot : Fin 4) (operations : List (Issued DgStream DgWork)) : Prop :=
  ∀ operation ∈ operations, ∀ work, operation.work = some work → ¬work.uses slot

theorem Elsewhere.log (elsewhere : Elsewhere slot operations) {i : Nat} {stream : DgStream}
    {work : DgWork} {after : Option Nat} (uses : work.uses slot)
    (present : (device.issueAll operations).log[i]? = some ⟨stream, some work, after⟩) :
    device.log[i]? = some ⟨stream, some work, after⟩ := by
  rcases log_issueAll_cases present with old | ⟨k, _, new⟩
  · exact old
  · exact absurd uses (elsewhere _ (List.mem_of_getElem? new) work rfl)

theorem Waits.before (elsewhere : Elsewhere slot operations)
    (waits : Waits (device.issueAll operations) slot g scalars other) :
    Waits device slot g scalars other := by
  obtain ⟨⟨stream, after, present⟩, later⟩ := waits
  exact ⟨⟨stream, after, elsewhere.log rfl present⟩, later⟩

theorem DgRound.issueAll (round : DgRound env device slot S pin memory first slice s)
    (elsewhere : Elsewhere slot operations) :
    DgRound env (device.issueAll operations) slot S pin memory first slice s where
  within := round.within
  key := round.key
  dt := round.dt
  queued := fun array => log_issueAll_of_some (round.queued array)
  marked := log_issueAll_of_some round.marked
  last := fun i stream array count after present =>
    round.last i stream array count after (elsewhere.log rfl present)
  pin := round.pin
  landed := round.landed
  covered := fun g scalars other waits => by
    obtain ⟨event, consumed, covered⟩ := round.covered g scalars other (waits.before elsewhere)
    exact ⟨event, consumed, covered.issueAll operations⟩
  waits := fun g scalars other waits => by
    refine (round.waits g scalars other (waits.before elsewhere)).imp ?_ ?_
    · exact And.imp_left fun precedes array => (precedes array).issueAll operations
    · exact And.imp_left fun behind array =>
        (behind array).imp_right fun precedes => precedes.issueAll operations

/-- Other operations do not touch the slot. -/
theorem SlotInv.issueAll (inv : SlotInv env device slot S pin memory)
    (elsewhere : Elsewhere slot operations) :
    SlotInv env (device.issueAll operations) slot S pin memory := by
  unfold SlotInv at inv ⊢
  split
  next empty =>
    rw [empty] at inv
    refine ⟨inv.1, fun i stream work after present uses => ?_⟩
    exact inv.2 i stream work after (elsewhere.log uses present) uses
  next event recorded =>
    rw [recorded] at inv
    obtain ⟨first, slice, s, place, round⟩ := inv
    exact ⟨first, slice, s, place, round.issueAll elsewhere⟩

theorem Waits.beforeRun {index : Nat} (waits : Waits (device.run index) slot g scalars other) :
    Waits device slot g scalars other ∧ g ≠ index := by
  obtain ⟨queued, later⟩ := waits
  have later : ¬(g ∈ device.ran ∨ g = index) := fun ran =>
    later (List.mem_append.mpr (ran.imp_right List.mem_singleton.mpr))
  exact ⟨⟨queued, fun ran => later (Or.inl ran)⟩, fun same => later (Or.inr same)⟩

/-- The device runs an operation; the arrays change as far as it is a copy into the slot. -/
theorem DgRound.run (round : DgRound env device slot S pin memory first slice s) {index : Nat}
    (ordered : (device.run index).Ordered) {written : DgBuffers}
    (copied : ∀ array : DgArray, first + array.turn = index → ∀ i < env.sizes slice s array,
      written array i = pin array i)
    (kept : ∀ array : DgArray, first + array.turn ≠ index → written array = memory array) :
    DgRound env (device.run index) slot S pin written first slice s where
  within := round.within
  key := round.key
  dt := round.dt
  queued := round.queued
  marked := round.marked
  last := fun i stream array count after present =>
    (round.last i stream array count after present).imp_left (List.mem_append_left _)
  pin := round.pin
  landed := fun array ran i small => by
    by_cases now : first + array.turn = index
    · rw [copied array now i small]
      exact round.pin array i small
    · have before : first + array.turn ∈ device.ran :=
        (List.mem_append.mp ran).resolve_right fun last => now (List.mem_singleton.mp last)
      rw [kept array now]
      exact round.landed array before i small
  covered := fun g scalars other waits => by
    obtain ⟨event, consumed, covered⟩ := round.covered g scalars other waits.beforeRun.1
    exact ⟨event, consumed, covered.run index⟩
  waits := fun g scalars other waits => by
    refine (round.waits g scalars other waits.beforeRun.1).imp ?_ ?_
    · rintro ⟨precedes, right⟩
      refine ⟨fun array => (precedes array).run index, ?_⟩
      -- A copy of the round cannot run while the product waits in front of it.
      have same : written = memory := funext fun array => kept array fun now =>
        waits.later (((precedes array).run index).ranBefore ordered
          (List.mem_append_right _ (List.mem_singleton.mpr now))).first_mem
      rw [same]
      exact right
    · exact And.imp_left fun behind array =>
        (behind array).imp (List.mem_append_left _) fun precedes => precedes.run index

/-- The copies of a round have run when its event has. -/
theorem DgRound.ran (round : DgRound env device slot S pin memory first slice s)
    (ordered : device.Ordered) (passed : first + 3 ∈ device.ran) (array : DgArray) :
    first + array.turn ∈ device.ran := by
  have edge : device.Edge (first + array.turn) (first + 3) := by
    refine ⟨_, _, round.queued array, round.marked, Or.inl ⟨?_, rfl⟩⟩
    cases array <;> exact Nat.add_lt_add_left (by decide) first
  exact (ordered.edges _ _ edge passed).first_mem

/-- A product that runs finds what it asks for. -/
theorem DgRound.right (round : DgRound env device slot S pin memory first slice s)
    (packed : env.Packed shape) (ordered : (device.run g).Ordered)
    (waits : Waits device slot g scalars other) :
    env.Right other (gemmWeights (scalars.tensor memory)) := by
  rcases round.waits g scalars other waits with ⟨_, right⟩ | ⟨behind, rfl, same⟩
  · exact right
  · have ran : ∀ array : DgArray, first + array.turn ∈ device.ran := by
      intro array
      rcases behind array with ran | precedes
      · exact ran
      · obtain ⟨member, sooner⟩ := (precedes.run g).ranBefore ordered
          (List.mem_append_right _ (List.mem_singleton_self g))
        rcases List.mem_append.mp (RanBefore.first_mem ⟨member, sooner⟩) with ran | last
        · exact ran
        · rw [List.mem_singleton.mp last] at sooner
          exact absurd sooner (Nat.lt_irrefl _)
    rw [round.dt]
    exact (env.right_of_copied packed round.within fun array => round.landed array (ran array)).of_key
      packed round.within (round.key.symm.trans same.symm)

/-- What a fill finds once the event of the last round has passed. -/
theorem SlotInv.drained (inv : SlotInv env device slot S pin memory) (packed : env.Packed shape)
    (ordered : device.Ordered) (passed : ∀ event, S.upEv = some event → event ∈ device.ran) :
    (∀ i stream array count after,
        device.log[i]? = some ⟨stream, some (.upload slot array count), after⟩ → i ∈ device.ran) ∧
      ∀ g scalars other, Waits device slot g scalars other →
        (∃ event, S.consEv = some event ∧ device.Covered event g) ∧
          env.Right other (gemmWeights (scalars.tensor memory)) := by
  unfold SlotInv at inv
  split at inv
  next =>
    refine ⟨fun i stream array count after present => absurd rfl (inv.2 _ _ _ _ present), ?_⟩
    rintro g scalars other ⟨⟨stream, after, present⟩, _⟩
    exact absurd rfl (inv.2 _ _ _ _ present)
  next event recorded =>
    obtain ⟨first, slice, s, rfl, round⟩ := inv
    have ran := round.ran ordered (passed _ recorded)
    constructor
    · intro i stream array count after present
      rcases round.last i stream array count after present with before | ⟨array, rfl⟩
      · exact before
      · exact ran array
    · intro g scalars other waits
      refine ⟨round.covered g scalars other waits, ?_⟩
      rcases round.waits g scalars other waits with ⟨_, right⟩ | ⟨_, rfl, same⟩
      · exact right
      · rw [round.dt]
        exact (env.right_of_copied packed round.within fun array =>
          round.landed array (ran array)).of_key packed round.within
            (round.key.symm.trans same.symm)

end Frames

/-! ## A fill -/

/-- `if (S->cons_pending) cudaStreamWaitEvent(...)`. -/
def fillWaits (S : DgSlot) : List (Issued DgStream DgWork) :=
  match S.consEv with
  | some event => [⟨.upload, none, some event⟩]
  | none => []

/-- The copies of a round, and the record behind them. -/
def fillCopies (slot : Fin 4) (sizes : DgArray → Nat) : List (Issued DgStream DgWork) :=
  [⟨.upload, some (.upload slot .codes (sizes .codes)), none⟩,
    ⟨.upload, some (.upload slot .rowOff (sizes .rowOff)), none⟩,
    ⟨.upload, some (.upload slot .bscale (sizes .bscale)), none⟩, ⟨.upload, none, none⟩]

theorem fillCopies_upload {slot : Fin 4} {sizes : DgArray → Nat} {k : Nat} {stream : DgStream}
    {work : DgWork} {after : Option Nat}
    (present : (fillCopies slot sizes)[k]? = some ⟨stream, some work, after⟩) :
    ∃ array : DgArray, k = array.turn ∧ work = .upload slot array (sizes array) := by
  match k with
  | 0 =>
      cases present
      exact ⟨.codes, rfl, rfl⟩
  | 1 =>
      cases present
      exact ⟨.rowOff, rfl, rfl⟩
  | 2 =>
      cases present
      exact ⟨.bscale, rfl, rfl⟩
  | 3 => cases present
  | k + 4 => cases present

theorem elsewhere_fillWaits (S : DgSlot) (slot : Fin 4) : Elsewhere slot (fillWaits S) := by
  intro operation member work does
  unfold fillWaits at member
  split at member
  next =>
    rw [List.mem_singleton.mp member] at does
    cases does
  next => cases member

section Fill

variable {env : DgEnv} {shape : Fin 2 → DgArray → Nat} {device : Device DgStream DgWork}
  {slot : Fin 4} {S : DgSlot} {pin memory : DgBuffers} {slice : SliceName} {s : FrobTensor}

/-- The pinned buffer of a slot when a slice is copied to it. -/
def filledPin (env : DgEnv) (slice : SliceName) (s : FrobTensor) (pin : DgBuffers) : DgBuffers :=
  let copied := fun array => DgBuffers.copy array (env.sizes slice s array) (s.slice slice.r0)
  copied .bscale (copied .rowOff (copied .codes pin))

theorem copied_get (sizes : DgArray → Nat) (source target : DgBuffers) (array : DgArray) {i : Nat}
    (small : i < sizes array) :
    DgBuffers.copy .bscale (sizes .bscale) source (DgBuffers.copy .rowOff (sizes .rowOff) source
      (DgBuffers.copy .codes (sizes .codes) source target)) array i = source array i := by
  cases array <;> simp [DgBuffers.copy, small]

/-- What waits for the slot runs in front of the new copies. -/
theorem SlotInv.fill (inv : SlotInv env device slot S pin memory) (packed : env.Packed shape)
    (ordered : device.Ordered) (passed : ∀ event, S.upEv = some event → event ∈ device.ran)
    (within : env.Within slice s) {filled : DgSlot} (key : filled.key = slice.keyBuffer)
    (dt : filled.dt = ⟨env.inputs slice.name, env.rows slice.name, s.bsNblk⟩)
    (consEv : filled.consEv = S.consEv)
    (upEv : filled.upEv = some ((device.issueAll (fillWaits S)).ticket + 3)) :
    SlotInv env ((device.issueAll (fillWaits S)).issueAll (fillCopies slot (env.sizes slice s))) slot
      filled (filledPin env slice s pin) memory := by
  obtain ⟨done, readers⟩ := inv.drained packed ordered passed
  have waiting := elsewhere_fillWaits S slot
  -- A product that waits is settled for the uploads behind the wait for its event.
  have settled : ∀ g scalars other, Waits (device.issueAll (fillWaits S)) slot g scalars other →
      (device.issueAll (fillWaits S)).Settled .upload g := by
    intro g scalars other waits
    obtain ⟨⟨event, consumed, covered⟩, _⟩ := readers g scalars other (waits.before waiting)
    have operations : fillWaits S = [⟨.upload, none, some event⟩] := by
      unfold fillWaits
      rw [consumed]
    rw [operations]
    exact covered.settled_wait .upload
  have product : ∀ {g scalars other}, Waits ((device.issueAll (fillWaits S)).issueAll
      (fillCopies slot (env.sizes slice s))) slot g scalars other →
        Waits (device.issueAll (fillWaits S)) slot g scalars other := by
    rintro g scalars other ⟨⟨stream, after, present⟩, later⟩
    rcases log_issueAll_cases present with old | ⟨k, _, new⟩
    · exact ⟨⟨stream, after, old⟩, later⟩
    · obtain ⟨array, _, same⟩ := fillCopies_upload new
      cases same
  unfold SlotInv
  rw [upEv]
  refine ⟨_, slice, s, rfl, within, key, dt, fun array => ?_, ?_, ?_, ?_, ?_, ?_, ?_⟩
  · rw [log_issueAll_ticket]
    cases array <;> rfl
  · rw [log_issueAll_ticket]
    rfl
  · intro i stream array count after present
    rcases log_issueAll_cases present with old | ⟨k, rfl, new⟩
    · exact Or.inl (done i stream array count after (waiting.log rfl old))
    · obtain ⟨array, place, _⟩ := fillCopies_upload new
      exact Or.inr ⟨array, by rw [place]⟩
  · exact fun array i small => copied_get _ _ _ array small
  · intro array ran
    have inside := ordered.inside _ ran
    have grown : device.log.length ≤ (device.issueAll (fillWaits S)).ticket := by
      rw [ticket, Device.issueAll, List.length_append]
      exact Nat.le_add_right _ _
    omega
  · intro g scalars other waits
    obtain ⟨⟨event, consumed, covered⟩, _⟩ := readers g scalars other
      ((product waits).before waiting)
    exact ⟨event, consEv.trans consumed, (covered.issueAll _).issueAll _⟩
  · intro g scalars other waits
    refine Or.inl ⟨fun array => ?_, (readers g scalars other ((product waits).before waiting)).2⟩
    have there : ∃ operation, (fillCopies slot (env.sizes slice s))[array.turn]? = some operation ∧
        operation.stream = .upload := by
      cases array <;> exact ⟨_, rfl, rfl⟩
    obtain ⟨operation, present, onStream⟩ := there
    exact ((settled g scalars other (product waits)).precedes_issueAll present
      onStream).resolve_left waits.later

/-- A slot whose other fields change. -/
theorem SlotInv.of_same (inv : SlotInv env device slot S pin memory) {after : DgSlot}
    (key : after.key = S.key) (dt : after.dt = S.dt) (consEv : after.consEv = S.consEv)
    (upEv : after.upEv = S.upEv) (valid : after.valid = true → S.valid = true) :
    SlotInv env device slot after pin memory := by
  unfold SlotInv at inv ⊢
  rw [upEv]
  split
  next empty =>
    rw [empty] at inv
    refine ⟨?_, inv.2⟩
    cases there : after.valid with
    | false => rfl
    | true => exact absurd (inv.1.symm.trans (valid there)) Bool.false_ne_true
  next event recorded =>
    rw [recorded] at inv
    obtain ⟨first, slice, s, place, round⟩ := inv
    refine ⟨first, slice, s, place, round.within, key.trans round.key, dt.trans round.dt,
      round.queued, round.marked, round.last, round.pin, round.landed, ?_, ?_⟩
    · rw [consEv]
      exact round.covered
    · rw [dt, key]
      exact round.waits

/-- A product with what the slot holds, behind the wait for its copies. -/
def consumes (slot : Fin 4) (scalars : DgScalars) (slice : SliceName) :
    List (Issued DgStream DgWork) :=
  [⟨.compute, some (.gemmSlot slot scalars slice), none⟩, ⟨.compute, none, none⟩]

theorem SlotInv.consumed (inv : SlotInv env device slot S pin memory)
    (placed : ∀ (i : Nat) (stream : DgStream) (scalars : DgScalars) (slice : SliceName)
      (after : Option Nat),
      device.log[i]? = some ⟨stream, some (.gemmSlot slot scalars slice), after⟩ → stream = .compute)
    (valid : S.valid = true) {asked : SliceName} (same : asked.keyBuffer = S.key) {after : DgSlot}
    (key : after.key = S.key) (dt : after.dt = S.dt) (upEv : after.upEv = S.upEv)
    (consEv : after.consEv = some ((device.wait .compute S.upEv).ticket + 1)) :
    SlotInv env ((device.wait .compute S.upEv).issueAll (consumes slot S.dt asked)) slot after pin
      memory := by
  have waiting : Elsewhere slot [(⟨.compute, none, S.upEv⟩ : Issued DgStream DgWork)] := by
    intro operation member work does
    rw [List.mem_singleton.mp member] at does
    cases does
  unfold SlotInv at inv ⊢
  rw [upEv]
  split
  next empty =>
    rw [empty] at inv
    exact absurd (inv.1.symm.trans valid) Bool.false_ne_true
  next event recorded =>
    rw [recorded] at inv
    obtain ⟨first, slice, s, rfl, round⟩ := inv
    rw [recorded] at consEv ⊢
    obtain ⟨before, here⟩ : DgRound env (device.wait .compute (some (first + 3))) slot S pin memory
        first slice s ∧ ∀ array : DgArray,
          (device.wait .compute (some (first + 3))).Settled .compute (first + array.turn) := by
      rw [recorded] at waiting
      refine ⟨round.issueAll waiting, fun array => Covered.settled_wait (Or.inr (.single ?_)) _⟩
      refine ⟨_, _, round.queued array, round.marked, Or.inl ⟨?_, rfl⟩⟩
      cases array <;> exact Nat.add_lt_add_left (by decide) first
    -- The new product, or one that waited before.
    have product : ∀ {g scalars other}, Waits ((device.wait .compute (some (first + 3))).issueAll
        (consumes slot S.dt asked)) slot g scalars other →
          Waits (device.wait .compute (some (first + 3))) slot g scalars other ∨
            g = (device.wait .compute (some (first + 3))).ticket ∧ scalars = S.dt ∧
              other = asked := by
      rintro g scalars other ⟨⟨stream, after, present⟩, fresh⟩
      rcases log_issueAll_cases present with old | ⟨k, rfl, new⟩
      · exact Or.inl ⟨⟨stream, after, old⟩, fresh⟩
      · match k with
        | 0 =>
            cases new
            exact Or.inr ⟨rfl, rfl, rfl⟩
        | 1 => cases new
        | k + 2 => cases new
    refine ⟨first, slice, s, rfl, before.within, key.trans before.key, dt.trans before.dt,
      fun array => log_issueAll_of_some (before.queued array), log_issueAll_of_some before.marked,
      ?_, before.pin, before.landed, ?_, ?_⟩
    · intro i stream array count after present
      rcases log_issueAll_cases present with old | ⟨k, _, new⟩
      · exact before.last i stream array count after old
      · match k with
        | 0 => cases new
        | 1 => cases new
        | k + 2 => cases new
    · intro g scalars other waits
      refine ⟨_, consEv, ?_⟩
      rcases product waits with ⟨⟨stream, after, present⟩, fresh⟩ | ⟨rfl, _, _⟩
      · have onStream : stream = .compute := by
          rcases log_issueAll_cases present with old | ⟨k, _, new⟩
          · exact placed g stream scalars other after old
          · match k with
            | 0 => cases new
            | k + 1 => cases new
        exact (settled_of_stream present onStream).precedes_issueAll
          (show (consumes slot S.dt asked)[1]? = some ⟨.compute, none, none⟩ from rfl) rfl
      · exact Or.inr (.single ⟨⟨.compute, some (.gemmSlot slot S.dt asked), none⟩,
          ⟨.compute, none, none⟩, log_issueAll_ticket _ _ 0, log_issueAll_ticket _ _ 1,
          Or.inl ⟨Nat.lt_succ_self _, rfl⟩⟩)
    · intro g scalars other waits
      rcases product waits with old | ⟨rfl, rfl, rfl⟩
      · refine (before.waits g scalars other old).imp ?_ ?_
        · exact And.imp_left fun precedes array => (precedes array).issueAll _
        · rw [dt, key]
          exact And.imp_left fun behind array =>
            (behind array).imp_right fun precedes => precedes.issueAll _
      · refine Or.inr ⟨fun array => ?_, dt.symm, same.trans key.symm⟩
        exact (here array).precedes_issueAll
          (show (consumes slot S.dt other)[0]? = some ⟨.compute, some (.gemmSlot slot S.dt other),
            none⟩ from rfl) rfl

end Fill

end KairosEngine.Cuda
