import KairosEngine.Cuda.PrefetchSlots

/-!
# Prefetching changes no product

Wherever the rows of an expert come from, and however the two streams overlap, a product multiplies
with the rows of its expert; and no copy leaves the arrays of its slot.
-/

namespace KairosEngine.Cuda

open KairosEngine.Library Device

/-- The kind of slices that a slot is for. -/
def kindOf (slot : Fin 4) : Fin 2 := Fin.ofNat 2 (slot.val / 2)

theorem kindOf_slotOf (kind : Fin 2) (turn : Nat) : kindOf (DgPrefetch.slotOf kind turn) = kind := by
  apply Fin.ext
  change (2 * kind.val + turn % 2) / 2 % 2 = kind.val
  omega

structure DgInv (env : DgEnv) (shape : Fin 2 → DgArray → Nat) (pf : DgPrefetch) : Prop where
  ordered : pf.device.Ordered
  placed : ∀ (i : Nat) (stream : DgStream) (slot : Fin 4) (scalars : DgScalars) (slice : SliceName)
    (after : Option Nat),
    pf.device.log[i]? = some ⟨stream, some (.gemmSlot slot scalars slice), after⟩ → stream = .compute
  slots : ∀ slot, SlotInv env pf.device slot (pf.slots slot) (pf.pin slot) (pf.memory slot)
  own : ∀ (i : Nat) (stream : DgStream) (W : DevTensor) (slice : SliceName) (after : Option Nat),
    pf.device.log[i]? = some ⟨stream, some (.gemmOwn W slice), after⟩ →
      env.Right slice (gemmWeights W)
  cached : ∀ key W, (key, W) ∈ pf.wcache → ∀ slice : SliceName, slice.keyBuffer = key →
    env.Right slice (gemmWeights W)
  found : ∀ read ∈ pf.reads, env.Right read.slice read.found
  rooms : ∀ slot, (pf.slots slot).inited = true → (pf.slots slot).room = shape (kindOf slot)
  sized : ∀ (i : Nat) (stream : DgStream) (slot : Fin 4) (array : DgArray) (count : Nat)
    (after : Option Nat),
    pf.device.log[i]? = some ⟨stream, some (.upload slot array count), after⟩ →
      (pf.slots slot).inited = true ∧ count = shape (kindOf slot) array

section Steps

variable {env : DgEnv} {shape : Fin 2 → DgArray → Nat} {pf next : DgPrefetch} {slot : Fin 4}
  {slice : SliceName} {s : FrobTensor} {operations : List (Issued DgStream DgWork)}

/-! ## The device -/

/-- An operation changes the arrays of a slot only as a copy into it. -/
theorem written_cases (pf : DgPrefetch) (index : Nat) (slot : Fin 4) :
    (∃ stream array count after,
      pf.device.log[index]? = some ⟨stream, some (.upload slot array count), after⟩ ∧
        pf.written index slot = DgBuffers.copy array count (pf.pin slot) (pf.memory slot)) ∨
      pf.written index slot = pf.memory slot := by
  cases does : pf.device.log[index]?.bind (·.work) with
  | none => exact Or.inr (by rw [DgPrefetch.written, does])
  | some work =>
      cases work with
      | upload target array count =>
          by_cases same : slot = target
          · subst same
            rw [Option.bind_eq_some_iff] at does
            obtain ⟨⟨stream, _, after⟩, present, rfl⟩ := does
            refine Or.inl ⟨stream, array, count, after, present, ?_⟩
            rw [DgPrefetch.written, present, Option.bind_some]
            exact Function.update_self ..
          · exact Or.inr (by rw [DgPrefetch.written, does]; exact Function.update_of_ne same ..)
      | gemmSlot source scalars slice => exact Or.inr (by rw [DgPrefetch.written, does])
      | gemmOwn W slice => exact Or.inr (by rw [DgPrefetch.written, does])
      | other => exact Or.inr (by rw [DgPrefetch.written, does])

theorem DgInv.complete (inv : DgInv env shape pf) (packed : env.Packed shape) {index : Nat}
    (ready : pf.device.runnable index = true) : DgInv env shape (pf.complete index) := by
  have fresh := runnable_fresh ready
  have ordered := inv.ordered.run ready
  refine ⟨ordered, inv.placed, fun slot => ?_, inv.own, inv.cached, fun read member => ?_,
    inv.rooms, inv.sized⟩
  · have here := inv.slots slot
    change SlotInv env (pf.device.run index) slot (pf.slots slot) (pf.pin slot)
      (pf.written index slot)
    unfold SlotInv at here ⊢
    split
    next empty =>
      rw [empty] at here
      exact here
    next event recorded =>
      rw [recorded] at here
      obtain ⟨first, slice, s, place, round⟩ := here
      refine ⟨first, slice, s, place, round.run ordered ?_ ?_⟩
      · rintro array rfl i small
        rw [DgPrefetch.written, round.queued array]
        simp only [Option.bind_some]
        rw [Function.update_self, DgBuffers.copy, if_pos ⟨rfl, small⟩]
      · intro array other
        rcases written_cases pf index slot with ⟨stream, copied, count, after, present, same⟩ | same
        · rcases round.last index stream copied count after present with ran | ⟨turn, rfl⟩
          · exact absurd ran fresh
          · rw [round.queued turn] at present
            cases present
            have different : array ≠ copied := fun same => other (by rw [same])
            rw [same]
            exact funext fun i => if_neg fun both => different both.1
        · rw [same]
  · rcases List.mem_append.mp member with old | new
    · exact inv.found read old
    · unfold DgPrefetch.readsOf at new
      split at new
      next slot scalars slice does =>
        rw [Option.bind_eq_some_iff] at does
        obtain ⟨⟨stream, work, after⟩, present, rfl⟩ := does
        rw [List.mem_singleton.mp new]
        have here := inv.slots slot
        unfold SlotInv at here
        split at here
        next => exact absurd rfl (here.2 _ _ _ _ present)
        next event recorded =>
          obtain ⟨first, _, s, _, round⟩ := here
          exact round.right packed ordered ⟨⟨stream, after, present⟩, fresh⟩
      next W slice does =>
        rw [Option.bind_eq_some_iff] at does
        obtain ⟨⟨stream, work, after⟩, present, rfl⟩ := does
        rw [List.mem_singleton.mp new]
        exact inv.own index stream W slice after present
      next => cases new

/-! ## What the host issues -/

/-- Operations that use no slot; products with buffers of their own have the rows in them. -/
theorem DgInv.issueAll (inv : DgInv env shape pf) (elsewhere : ∀ slot, Elsewhere slot operations)
    (own : ∀ operation ∈ operations, ∀ W slice, operation.work = some (.gemmOwn W slice) →
      env.Right slice (gemmWeights W)) :
    DgInv env shape { pf with device := pf.device.issueAll operations } where
  ordered := inv.ordered.issueAll operations
  placed := fun i stream slot scalars slice after present =>
    inv.placed i stream slot scalars slice after ((elsewhere slot).log rfl present)
  slots := fun slot => (inv.slots slot).issueAll (elsewhere slot)
  own := fun i stream W slice after present => by
    rcases log_issueAll_cases present with old | ⟨k, _, new⟩
    · exact inv.own i stream W slice after old
    · exact own _ (List.mem_of_getElem? new) W slice rfl
  cached := inv.cached
  found := inv.found
  rooms := inv.rooms
  sized := fun i stream slot array count after present =>
    inv.sized i stream slot array count after ((elsewhere slot).log rfl present)

theorem DgInv.gemmOwn (inv : DgInv env shape pf) {W : DevTensor}
    (right : env.Right slice (gemmWeights W)) :
    DgInv env shape { pf with device := pf.device.launch .compute (.gemmOwn W slice) } := by
  apply @DgInv.issueAll _ _ _ [⟨.compute, some (.gemmOwn W slice), none⟩] inv
  · intro slot operation member work does uses
    rw [List.mem_singleton.mp member] at does
    cases does
    exact uses
  · intro operation member V other does
    rw [List.mem_singleton.mp member] at does
    cases does
    exact right

/-! ## A prefetch -/

theorem fill_device (pf : DgPrefetch) (slot : Fin 4) (s : FrobTensor) (slice : SliceName) :
    (pf.fill slot s slice (env.rows slice.name) (env.inputs slice.name)).device =
      (pf.device.issueAll (fillWaits (pf.slots slot))).issueAll
        (fillCopies slot (env.sizes slice s)) := by
  unfold DgPrefetch.fill fillWaits
  dsimp only
  cases (pf.slots slot).consEv with
  | none =>
      simp only [Device.record, Device.launch, Device.issue, Device.issueAll, List.append_nil,
        List.append_assoc]
      rfl
  | some event =>
      simp only [Device.record, Device.launch, Device.issue, Device.wait, Device.issueAll,
        List.append_assoc]
      rfl

/-- The slot that a fill leaves. -/
theorem fill_slot (pf : DgPrefetch) (slot : Fin 4) (s : FrobTensor) (slice : SliceName) :
    (pf.fill slot s slice (env.rows slice.name) (env.inputs slice.name)).slots slot =
      { pf.slots slot with
        key := slice.keyBuffer, valid := true
        upEv := some ((pf.device.issueAll (fillWaits (pf.slots slot))).ticket + 3)
        dt := ⟨env.inputs slice.name, env.rows slice.name, s.bsNblk⟩ } := by
  unfold DgPrefetch.fill fillWaits
  dsimp only
  cases (pf.slots slot).consEv with
  | none =>
      simp only [Function.update_self, Device.issueAll, List.append_nil, ticket, Device.launch,
        Device.issue, List.length_append, List.length_singleton]
  | some event =>
      simp only [Function.update_self, Device.issueAll, ticket, Device.launch, Device.wait,
        Device.issue, List.length_append, List.length_singleton]

theorem elsewhere_fillCopies {other : Fin 4} (sizes : DgArray → Nat) (different : slot ≠ other) :
    Elsewhere other (fillCopies slot sizes) := by
  intro operation member work does uses
  obtain ⟨k, here⟩ := List.mem_iff_getElem?.mp member
  obtain ⟨stream, _, after⟩ := operation
  obtain rfl : _ = some work := does
  obtain ⟨array, _, rfl⟩ := fillCopies_upload here
  exact different uses

theorem DgInv.fill (inv : DgInv env shape pf) (packed : env.Packed shape)
    (within : env.Within slice s) (kind : env.kind slice.name = kindOf slot)
    (inited : (pf.slots slot).inited = true)
    (passed : ∀ event, (pf.slots slot).upEv = some event → event ∈ pf.device.ran) :
    DgInv env shape (pf.fill slot s slice (env.rows slice.name) (env.inputs slice.name)) := by
  have log : ∀ {i : Nat} {stream : DgStream} {work : DgWork} {after : Option Nat},
      (pf.fill slot s slice (env.rows slice.name) (env.inputs slice.name)).device.log[i]? =
        some ⟨stream, some work, after⟩ →
      pf.device.log[i]? = some ⟨stream, some work, after⟩ ∨
        ∃ array, work = .upload slot array (env.sizes slice s array) := by
    intro i stream work after present
    rw [fill_device] at present
    rcases log_issueAll_cases present with old | ⟨k, _, new⟩
    · rcases log_issueAll_cases old with old | ⟨k, _, new⟩
      · exact Or.inl old
      · unfold fillWaits at new
        split at new
        next =>
          rw [List.getElem?_singleton] at new
          split at new <;> cases new
        next => cases new
    · obtain ⟨array, _, same⟩ := fillCopies_upload new
      exact Or.inr ⟨array, same⟩
  have others : ∀ other, other ≠ slot →
      (pf.fill slot s slice (env.rows slice.name) (env.inputs slice.name)).slots other =
        pf.slots other := fun other different => Function.update_of_ne different ..
  refine ⟨?_, ?_, fun other => ?_, ?_, inv.cached, inv.found, fun other there => ?_, ?_⟩
  · rw [fill_device]
    exact (inv.ordered.issueAll _).issueAll _
  · intro i stream target scalars asked after present
    rcases log present with old | ⟨array, same⟩
    · exact inv.placed i stream target scalars asked after old
    · cases same
  · rw [fill_device]
    by_cases here : other = slot
    · subst here
      have filled := @fill_slot env pf other s slice
      have pin : (pf.fill other s slice (env.rows slice.name) (env.inputs slice.name)).pin other =
          filledPin env slice s (pf.pin other) := Function.update_self ..
      rw [filled, pin]
      exact (inv.slots other).fill packed inv.ordered passed within rfl rfl rfl rfl
    · have pin : (pf.fill slot s slice (env.rows slice.name) (env.inputs slice.name)).pin other =
          pf.pin other := Function.update_of_ne here ..
      rw [others other here, pin]
      exact ((inv.slots other).issueAll (elsewhere_fillWaits _ other)).issueAll
        (elsewhere_fillCopies _ (Ne.symm here))
  · intro i stream W asked after present
    rcases log present with old | ⟨array, same⟩
    · exact inv.own i stream W asked after old
    · cases same
  · by_cases here : other = slot
    · subst here
      rw [fill_slot]
      exact inv.rooms other inited
    · rw [others other here] at there ⊢
      exact inv.rooms other there
  · intro i stream target array count after present
    rcases log present with old | ⟨copied, same⟩
    · obtain ⟨there, sized⟩ := inv.sized i stream target array count after old
      refine ⟨?_, sized⟩
      by_cases here : target = slot
      · subst here
        rw [fill_slot]
        exact inited
      · rw [others target here]
        exact there
    · cases same
      rw [fill_slot]
      refine ⟨inited, ?_⟩
      rw [packed.sizes slice s within, kind]

theorem within_of_prefetchable (packable : DgPrefetch.prefetchable env slice = some s) :
    env.Within slice s := by
  unfold DgPrefetch.prefetchable at packable
  dsimp only at packable
  split at packable
  next => cases packable
  next =>
    cases known : env.arena slice.name with
    | none =>
        rw [known] at packable
        cases packable
    | some t =>
        rw [known] at packable
        dsimp only at packable
        split at packable
        next => cases packable
        next range =>
          rw [not_or, Nat.not_lt] at range
          obtain rfl : t = s := by
            split at packable
            next => cases packable
            next =>
              split at packable
              next => cases packable
              next =>
                split at packable
                next => cases packable
                next => exact Option.some.inj packable
          exact ⟨known, Nat.pos_of_ne_zero range.1, range.2⟩

/-- A slot that takes a slice differs in its allocations at most. -/
theorem prefetchSlot_cases {allocates : Bool} {S taken : DgSlot}
    (takes : DgPrefetch.prefetchSlot env slice s allocates S = some taken) :
    taken.inited = true ∧
      (S.inited = true ∧ taken = S ∨
        ∃ pinCap, taken = { S with room := env.sizes slice s, pinCap, inited := true }) := by
  unfold DgPrefetch.prefetchSlot at takes
  dsimp only at takes
  split at takes
  next => cases takes
  next =>
    generalize (if s.hasBscale = true then env.rows slice.name * s.bsNblk * 2 else 0) = bsc at takes
    split at takes
    next => cases takes
    next =>
      split at takes
      next inited =>
        split at takes
        next => cases takes
        next =>
          obtain rfl := Option.some.inj takes
          exact ⟨inited, Or.inl ⟨inited, rfl⟩⟩
      next =>
        split at takes
        next =>
          cases takes
          exact ⟨rfl, Or.inr ⟨_, rfl⟩⟩
        next => cases takes

/-- Another slot in the place of one. -/
theorem DgInv.setSlot (inv : DgInv env shape pf) {S : DgSlot}
    (kept : SlotInv env pf.device slot S (pf.pin slot) (pf.memory slot))
    (inited : (pf.slots slot).inited = true → S.inited = true)
    (room : S.inited = true → S.room = shape (kindOf slot)) :
    DgInv env shape { pf with slots := Function.update pf.slots slot S } := by
  refine ⟨inv.ordered, inv.placed, fun other => ?_, inv.own, inv.cached, inv.found,
    fun other there => ?_, fun i stream target array count after present => ?_⟩
  · dsimp only
    by_cases here : other = slot
    · subst here
      rw [Function.update_self]
      exact kept
    · rw [Function.update_of_ne here]
      exact inv.slots other
  · dsimp only at there ⊢
    by_cases here : other = slot
    · subst here
      rw [Function.update_self] at there ⊢
      exact room there
    · rw [Function.update_of_ne here] at there ⊢
      exact inv.rooms other there
  · obtain ⟨before, sized⟩ := inv.sized i stream target array count after present
    refine ⟨?_, sized⟩
    dsimp only
    by_cases here : target = slot
    · subst here
      rw [Function.update_self]
      exact inited before
    · rw [Function.update_of_ne here]
      exact before

/-- The slot has its allocations, and nothing is issued yet. -/
theorem DgInv.take (inv : DgInv env shape pf) (packed : env.Packed shape)
    (within : env.Within slice s) (kind : env.kind slice.name = kindOf slot) (rr : Fin 2 → Nat)
    {S : DgSlot} (inited : S.inited = true)
    (same : (pf.slots slot).inited = true ∧ S = pf.slots slot ∨
      ∃ pinCap, S = { pf.slots slot with room := env.sizes slice s, pinCap, inited := true }) :
    DgInv env shape { pf with rr, slots := Function.update pf.slots slot S } := by
  have kept : SlotInv env pf.device slot S (pf.pin slot) (pf.memory slot) := by
    rcases same with ⟨_, rfl⟩ | ⟨pinCap, rfl⟩
    · exact inv.slots slot
    · exact (inv.slots slot).of_same rfl rfl rfl rfl id
  have room : S.room = shape (kindOf slot) := by
    rcases same with ⟨before, rfl⟩ | ⟨pinCap, rfl⟩
    · exact inv.rooms slot before
    · exact (packed.sizes slice s within).trans (congrArg shape kind)
  have taken := inv.setSlot kept (fun _ => inited) fun _ => room
  exact ⟨taken.ordered, taken.placed, taken.slots, taken.own, taken.cached, taken.found, taken.rooms,
    taken.sized⟩

theorem DgInv.prefetchRows (inv : DgInv env shape pf) (packed : env.Packed shape) {allocates : Bool}
    (passes : pf.prefetchRows env slice allocates = some next) : DgInv env shape next := by
  unfold DgPrefetch.prefetchRows at passes
  cases packable : DgPrefetch.prefetchable env slice with
  | none =>
      rw [packable] at passes
      exact Option.some.inj passes ▸ inv
  | some s =>
      rw [packable] at passes
      dsimp only at passes
      have within := within_of_prefetchable packable
      cases takes : DgPrefetch.prefetchSlot env slice s allocates
          (pf.slots (DgPrefetch.slotOf (env.kind slice.name) (pf.rr (env.kind slice.name)))) with
      | none =>
          rw [takes] at passes
          obtain rfl := Option.some.inj passes
          exact ⟨inv.ordered, inv.placed, inv.slots, inv.own, inv.cached, inv.found, inv.rooms,
            inv.sized⟩
      | some S =>
          rw [takes] at passes
          dsimp only at passes
          obtain ⟨inited, same⟩ := prefetchSlot_cases takes
          have kind := (kindOf_slotOf (env.kind slice.name) (pf.rr (env.kind slice.name))).symm
          generalize DgPrefetch.slotOf (env.kind slice.name) (pf.rr (env.kind slice.name)) = slot
            at passes same kind
          split at passes
          next passed =>
            obtain rfl := Option.some.inj passes
            apply (inv.take packed within kind _ inited same).fill packed within kind
            · dsimp only
              rw [Function.update_self]
              exact inited
            · dsimp only
              rw [Function.update_self]
              intro event recorded
              rw [recorded, Option.all_some] at passed
              exact of_decide_eq_true passed
          next => cases passes

/-! ## A product -/

/-- Freshly uploaded rows are those of the tensor. -/
theorem right_uploadPacked (packed : env.Packed shape) (within : env.Within slice s)
    (fresh : DgBuffers) :
    env.Right slice (gemmWeights (DgPrefetch.uploadPacked s slice (env.rows slice.name)
      (env.inputs slice.name) fresh)) := by
  have enough : ¬s.rowOff slice.r0 + s.span slice.r0 (env.rows slice.name) (env.inputs slice.name) >
      s.codesBytes := by
    have positive := within.some
    have inside := within.inside
    have last := packed.inside _ _ within.known (slice.r0 + env.rows slice.name - 1) (by omega)
    have order := packed.ascending _ _ within.known slice.r0 (slice.r0 + env.rows slice.name - 1)
      (by omega) (by omega)
    unfold FrobTensor.span FrobTensor.sliceEnd
    omega
  unfold DgPrefetch.uploadPacked
  dsimp only
  rw [if_neg enough]
  exact env.right_of_copied packed within fun array i small => copied_get _ _ _ array small

theorem DgInv.consume (inv : DgInv env shape pf) (slot : Fin 4) :
    DgInv env shape (pf.consume slot) := by
  have waiting : ∀ other, Elsewhere other
      [(⟨.compute, none, (pf.slots slot).upEv⟩ : Issued DgStream DgWork)] := by
    intro other operation member work does
    rw [List.mem_singleton.mp member] at does
    cases does
  have issued := inv.issueAll waiting fun operation member W slice does => by
    rw [List.mem_singleton.mp member] at does
    cases does
  exact issued.setSlot ((issued.slots slot).of_same rfl rfl rfl rfl fun valid => by cases valid)
    id (inv.rooms slot)

/-- A product with what was prefetched for its slice. -/
theorem DgInv.consumed (inv : DgInv env shape pf) (valid : (pf.slots slot).valid = true)
    (same : slice.keyBuffer = (pf.slots slot).key) :
    DgInv env shape ((pf.consume slot).consumed slot (pf.slots slot).dt slice) := by
  have waited := inv.consume slot
  have device : ((pf.consume slot).consumed slot (pf.slots slot).dt slice).device =
      (pf.device.wait .compute (pf.slots slot).upEv).issueAll
        (consumes slot (pf.slots slot).dt slice) := by
    simp only [DgPrefetch.consumed, DgPrefetch.consume, Device.record, Device.launch, Device.issue,
      Device.issueAll, List.append_assoc]
    rfl
  have here : ((pf.consume slot).consumed slot (pf.slots slot).dt slice).slots slot =
      { pf.slots slot with
        valid := false
        consEv := some ((pf.device.wait .compute (pf.slots slot).upEv).ticket + 1) } := by
    simp only [DgPrefetch.consumed, DgPrefetch.consume, Function.update_self, ticket, Device.launch,
      Device.issue, List.length_append, List.length_singleton]
  have others : ∀ other, other ≠ slot →
      ((pf.consume slot).consumed slot (pf.slots slot).dt slice).slots other =
        (pf.consume slot).slots other := fun other different => Function.update_of_ne different ..
  have log : ∀ {i : Nat} {stream : DgStream} {work : DgWork} {after : Option Nat},
      ((pf.consume slot).consumed slot (pf.slots slot).dt slice).device.log[i]? =
        some ⟨stream, some work, after⟩ →
      (pf.consume slot).device.log[i]? = some ⟨stream, some work, after⟩ ∨
        stream = .compute ∧ work = .gemmSlot slot (pf.slots slot).dt slice := by
    intro i stream work after present
    rw [device] at present
    rcases log_issueAll_cases present with old | ⟨k, _, new⟩
    · exact Or.inl old
    · rcases k with _ | _ | k
      · cases new
        exact Or.inr ⟨rfl, rfl⟩
      · cases new
      · cases new
  refine ⟨?_, ?_, fun other => ?_, ?_, inv.cached, inv.found, fun other there => ?_, ?_⟩
  · rw [device]
    exact waited.ordered.issueAll _
  · intro i stream target scalars asked after present
    rcases log present with old | ⟨onStream, _⟩
    · exact waited.placed i stream target scalars asked after old
    · exact onStream
  · by_cases there : other = slot
    · subst there
      rw [device, here]
      exact (inv.slots other).consumed (fun i stream scalars asked after present =>
        inv.placed i stream other scalars asked after present) valid same rfl rfl rfl rfl
    · rw [device, others other there]
      refine (waited.slots other).issueAll fun operation member work does uses => ?_
      rcases List.mem_cons.mp member with rfl | later
      · cases does
        exact there uses.symm
      · rw [List.mem_singleton.mp later] at does
        cases does
  · intro i stream W asked after present
    rcases log present with old | ⟨_, same⟩
    · exact waited.own i stream W asked after old
    · cases same
  · by_cases same : other = slot
    · subst same
      rw [here] at there ⊢
      exact inv.rooms other there
    · rw [others other same] at there ⊢
      exact waited.rooms other there
  · intro i stream target array count after present
    rcases log present with old | ⟨_, same⟩
    · obtain ⟨inited, sized⟩ := waited.sized i stream target array count after old
      refine ⟨?_, sized⟩
      by_cases same : target = slot
      · subst same
        rw [here]
        rw [show (pf.consume target).slots target = { pf.slots target with valid := false } from
          Function.update_self ..] at inited
        exact inited
      · rw [others target same]
        exact inited
    · cases same

theorem DgInv.gemmPackedRows (inv : DgInv env shape pf) (packed : env.Packed shape)
    (slice : SliceName) (scratch : Bool) (fresh : DgBuffers) (room : Bool) :
    DgInv env shape (pf.gemmPackedRows env slice scratch fresh room).1 := by
  unfold DgPrefetch.gemmPackedRows
  dsimp only
  cases resident : if env.wcache then pf.wcache.lookup slice.keyBuffer else none with
  | some W =>
      dsimp only
      split
      next =>
        have member : (slice.keyBuffer, W) ∈ pf.wcache := by
          split at resident
          next =>
            obtain ⟨before, behind, split, _⟩ := List.lookup_eq_some_iff.mp resident
            rw [split]
            exact List.mem_append_right _ List.mem_cons_self
          next => cases resident
        exact inv.gemmOwn (inv.cached _ W member slice rfl)
      next => exact inv
  | none =>
      dsimp only
      cases prefetched : if env.async then (List.finRange 4).find? fun slot =>
          (pf.slots slot).valid && decide ((pf.slots slot).key = slice.keyBuffer) else none with
      | some slot =>
          dsimp only
          split
          next =>
            obtain ⟨valid, same⟩ : (pf.slots slot).valid = true ∧
                (pf.slots slot).key = slice.keyBuffer := by
              split at prefetched
              next =>
                have here := List.find?_some prefetched
                rw [Bool.and_eq_true, decide_eq_true_eq] at here
                exact here
              next => cases prefetched
            exact inv.consumed valid same.symm
          next => exact inv.consume slot
      | none =>
          dsimp only
          cases known : env.arena slice.name with
          | none => exact inv
          | some s =>
              dsimp only
              split
              next => exact inv
              next range =>
                split
                next => exact inv
                next =>
                  split
                  next => exact inv
                  next =>
                    split
                    next => exact inv
                    next =>
                      rw [not_or, Nat.not_lt] at range
                      have within : env.Within slice s :=
                        ⟨known, Nat.pos_of_ne_zero range.1, range.2⟩
                      have right := right_uploadPacked packed within fresh
                      have issued := inv.gemmOwn right
                      refine ⟨issued.ordered, issued.placed, issued.slots, issued.own,
                        fun key W member other same => ?_, issued.found, issued.rooms, issued.sized⟩
                      dsimp only at member
                      split at member
                      next =>
                        rcases List.mem_append.mp member with old | new
                        · exact inv.cached key W old other same
                        · cases List.mem_singleton.mp new
                          exact right.of_key packed within same.symm
                      next => exact inv.cached key W member other same

theorem DgReached.inv {pin memory : Fin 4 → DgBuffers} (packed : env.Packed shape)
    (reached : DgReached env pin memory pf) : DgInv env shape pf := by
  induction reached with
  | boot =>
      refine ⟨ordered_empty, fun i stream slot scalars slice after present => ?_,
        fun slot => ⟨rfl, fun i stream work after present => ?_⟩,
        fun i stream W slice after present => ?_, fun key W member => ?_, fun read member => ?_,
        fun slot inited => ?_, fun i stream slot array count after present => ?_⟩
      · cases present
      · cases present
      · cases present
      · cases member
      · cases member
      · cases inited
      · cases present
  | step _ step inductionHypothesis =>
      cases step with
      | prefetch slice allocates passes => exact inductionHypothesis.prefetchRows packed passes
      | gemm slice scratch fresh room =>
          exact inductionHypothesis.gemmPackedRows packed slice scratch fresh room
      | other =>
          refine inductionHypothesis.issueAll (fun slot operation member work does uses => ?_)
            fun operation member W slice does => ?_
          · rw [List.mem_singleton.mp member] at does
            cases does
            exact uses
          · rw [List.mem_singleton.mp member] at does
            cases does
      | run index ready => exact inductionHypothesis.complete packed ready

end Steps

/-- Every product that has run multiplied with the rows of its slice where they are in the tensor,
whether they came from the cache, a slot or an upload, however the streams overlapped and whatever the
buffers held; and every copy that is queued fits the arrays that its slot has. -/
theorem dgPrefetch_exact (env : DgEnv) (shape : Fin 2 → DgArray → Nat) (packed : env.Packed shape)
    (pin memory : Fin 4 → DgBuffers) (pf : DgPrefetch) (reached : DgReached env pin memory pf) :
    (∀ read ∈ pf.reads, ∀ s, env.Within read.slice s → read.found = gemmWeights
        (s.rowsOf read.slice.r0 (env.rows read.slice.name) (env.inputs read.slice.name))) ∧
      ∀ (i : Nat) (stream : DgStream) (slot : Fin 4) (array : DgArray) (count : Nat)
        (after : Option Nat),
        pf.device.log[i]? = some ⟨stream, some (.upload slot array count), after⟩ →
          count ≤ (pf.slots slot).room array := by
  have inv := reached.inv packed
  refine ⟨inv.found, fun i stream slot array count after present => ?_⟩
  obtain ⟨inited, rfl⟩ := inv.sized i stream slot array count after present
  rw [inv.rooms slot inited]

/-- Two experts of two rows with 32 columns. -/
def smallTensor : FrobTensor where
  rows := 4
  rowPrec := fun _ => 4
  rowOff := fun r => 16 * r
  codes := fun i => UInt8.ofNat i
  codesBytes := 64
  hasBscale := true
  bscale := fun i => UInt16.ofNat i
  bsNblk := 1

def smallExperts : DgEnv where
  async := true
  wcache := true
  arena := fun name => if name = ['x'] then some smallTensor else none
  rows := fun _ => 2
  inputs := fun _ => 32
  kind := fun _ => 0

def smallSizes (_ : Fin 2) : DgArray → Nat
  | .codes => 32
  | .rowOff => 2
  | .bscale => 2

theorem smallExperts_packed : smallExperts.Packed smallSizes := by
  have known : ∀ {name s}, smallExperts.arena name = some s → name = ['x'] ∧ s = smallTensor := by
    intro name s there
    unfold smallExperts at there
    dsimp only at there
    split at there
    next same => exact ⟨same, (Option.some.inj there).symm⟩
    next => cases there
  constructor
  · intro name s there r later order _
    rw [(known there).2]
    exact Nat.mul_le_mul_left 16 order
  · intro name s there r inside
    obtain ⟨_, rfl⟩ := known there
    change 16 * r + (32 + 1) / 2 ≤ 64
    change r < 4 at inside
    omega
  · intro name s there
    rw [(known there).2]
    exact Nat.le_refl 32
  · rintro ⟨name, r0⟩ s ⟨there, _, inside⟩
    obtain ⟨rfl, rfl⟩ := known there
    change r0 + 2 ≤ 4 at inside
    obtain rfl | rfl | rfl : r0 = 0 ∨ r0 = 1 ∨ r0 = 2 := by omega
    all_goals decide
  · rintro ⟨name, r0⟩ s ⟨there, _, inside⟩
    obtain ⟨rfl, rfl⟩ := known there
    funext array
    cases array with
    | codes =>
        change 16 * (r0 + 2 - 1) + (32 + 1) / 2 - 16 * r0 = 32
        omega
    | rowOff => rfl
    | bscale => rfl

def blankBuffers : DgBuffers
  | .codes => fun _ => 0
  | .rowOff => fun _ => 0
  | .bscale => fun _ => 0

/-- The second expert is prefetched, and the product with it runs. -/
theorem dgPrefetch_exact_second :
    ∃ pf read, DgReached smallExperts (fun _ => blankBuffers) (fun _ => blankBuffers) pf ∧
      read ∈ pf.reads ∧ read.slice = ⟨['x'], 2⟩ ∧
        read.found = gemmWeights (smallTensor.rowsOf 2 2 32) := by
  have filled := DgReached.step (@DgReached.boot smallExperts (fun _ => blankBuffers)
    fun _ => blankBuffers) (.prefetch ⟨['x'], 2⟩ true rfl)
  have landed := (((filled.step (.run 0 rfl)).step (.run 1 rfl)).step (.run 2 rfl)).step (.run 3 rfl)
  have queued := landed.step (.gemm ⟨['x'], 2⟩ true blankBuffers false)
  have ran := (queued.step (.run 4 rfl)).step (.run 5 rfl)
  obtain ⟨found, _⟩ := dgPrefetch_exact smallExperts smallSizes smallExperts_packed _ _ _ ran
  exact ⟨_, _, ran, List.mem_cons_self, rfl, found _ List.mem_cons_self smallTensor
    ⟨rfl, by decide, by decide⟩⟩

end KairosEngine.Cuda
