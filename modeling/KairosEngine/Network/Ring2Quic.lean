import KairosEngine.Library.BlockStore
import KairosEngine.Library.Loop
import KairosEngine.Network.ShardBlock

/-!
# The Ring-2 store of a peer

`ring2_quic.rs`: the requests on the wire, the server's store of blocks, and the client.  The
server keys whole blocks by stream and start offset; the other Ring-2 backends are flat files.
-/

namespace KairosEngine.Network

open KairosEngine.Library

/-! ## Requests on the wire -/

def r2Magic : Nat := 0x53505232

structure R2Req where
  op : UInt8
  which : UInt8
  len : UInt32
  off : UInt64
  deriving DecidableEq

def reqToBytes (req : R2Req) : Bytes :=
  toLe 4 r2Magic ++ ([req.op, req.which, 0, 0] ++ (toLe 4 req.len.toNat ++
    (List.replicate 4 0 ++ (toLe 8 req.off.toNat ++ List.replicate 40 0))))

def reqFromBytes (bytes : Bytes) : Option R2Req :=
  if leField 0 4 bytes ≠ r2Magic then none
  else
    some {
      op := bytes.getD 4 0
      which := bytes.getD 5 0
      len := UInt32.ofNat (leField 8 4 bytes)
      off := UInt64.ofNat (leField 16 8 bytes) }

@[simp]
theorem length_reqToBytes (req : R2Req) : (reqToBytes req).length = 64 := by
  simp [reqToBytes]

theorem reqFromBytes_toBytes (req : R2Req) : reqFromBytes (reqToBytes req) = some req := by
  have magic : leField 0 4 (reqToBytes req) = r2Magic := @leField_append [] _ 0 4 _ rfl (by decide)
  have op : (reqToBytes req).getD 4 0 = req.op := rfl
  have which : (reqToBytes req).getD 5 0 = req.which := rfl
  have len : leField 8 4 (reqToBytes req) = req.len.toNat := by
    rw [reqToBytes, ← List.append_assoc]
    exact leField_append (by simp) req.len.toNat_lt
  have off : leField 16 8 (reqToBytes req) = req.off.toNat := by
    rw [reqToBytes, ← List.append_assoc, ← List.append_assoc, ← List.append_assoc]
    exact leField_append (by simp) req.off.toNat_lt
  rw [reqFromBytes, if_neg (not_not.mpr magic), op, which, len, off, UInt32.ofNat_toNat,
    UInt64.ofNat_toNat]

/-! ## The server -/

abbrev Ring2Store := UInt8 × UInt64 → Option Bytes

/-- One stream: what the server writes back before it lets go of it, and its store. -/
def serveStream (request : Bytes) (store : Ring2Store) : Bytes × Ring2Store :=
  if request.length < 64 then ([], store)
  else
    match reqFromBytes (request.take 64) with
    | none => ([], store)
    | some req =>
        if req.op = 1 then
          if (request.drop 64).length < req.len.toNat then ([], store)
          else
            ([0], Function.update store (req.which, req.off)
              (some ((request.drop 64).take req.len.toNat)))
        else if req.op = 0 then
          match store (req.which, req.off) with
          | some block => if block.length = req.len.toNat then (0 :: block, store) else ([1], store)
          | none => ([1], store)
        else ([], store)

/-! ## The client -/

/-- `read_exact` from what the server wrote. -/
def readExact (count : Nat) (stream : Bytes) : Except String (Bytes × Bytes) :=
  if stream.length < count then .error s!"stream finished early ({stream.length} bytes read)"
  else .ok (stream.take count, stream.drop count)

/-- The status byte, and what follows it. -/
def readStatus (response : Bytes) : Except String (UInt8 × Bytes) :=
  (readExact 1 response).map fun (status, rest) => (status.headD 0, rest)

def oneWrite (which : UInt8) (off : UInt64) (src : Bytes) (store : Ring2Store) :
    Except String Unit × Ring2Store :=
  let req : R2Req := ⟨1, which, UInt32.ofNat src.length, off⟩
  let (response, next) := serveStream (reqToBytes req ++ src) store
  let result := (readStatus response).bind fun (status, _) =>
    if status ≠ 0 then .error "ring2 quic write rejected" else .ok ()
  (result, next)

/-- What fills `dst`, a buffer of `len` bytes. -/
def oneRead (which : UInt8) (off : UInt64) (len : Nat) (store : Ring2Store) : Except String Bytes :=
  let req : R2Req := ⟨0, which, UInt32.ofNat len, off⟩
  let (response, _) := serveStream (reqToBytes req) store
  (readStatus response).bind fun (status, rest) =>
    if status ≠ 0 then .error "ring2 quic read miss"
    else (readExact len rest).map fun (dst, _) => dst

/-- All requests are in flight at once; the first error in their order is the result. -/
def readBatch (reqs : List (UInt8 × UInt64 × Nat)) (store : Ring2Store) :
    Except String (List Bytes) :=
  reqs.mapM fun (which, off, len) => oneRead which off len store

/-- A call of the backend. -/
inductive Ring2Call
  | write (which : UInt8) (off : UInt64) (src : Bytes)
  | read (which : UInt8) (off : UInt64) (len : Nat)
  deriving DecidableEq

def ring2Step (call : Ring2Call) (store : Ring2Store) : Ring2Store :=
  match call with
  | .write which off src => (oneWrite which off src store).2
  | .read _ _ _ => store

/-- The peer's store after these calls. -/
def ring2Run (calls : List Ring2Call) : Ring2Store :=
  serveAll ring2Step calls fun _ => none

/-! ## What the calls do -/

theorem serveStream_write (which : UInt8) (off : UInt64) (src : Bytes) (store : Ring2Store) :
    serveStream (reqToBytes ⟨1, which, UInt32.ofNat src.length, off⟩ ++ src) store =
      ([0], Function.update store (which, off) (some (src.take (src.length % 2 ^ 32)))) := by
  have header : (reqToBytes ⟨1, which, UInt32.ofNat src.length, off⟩ ++ src).take 64 =
      reqToBytes ⟨1, which, UInt32.ofNat src.length, off⟩ :=
    List.take_left' (length_reqToBytes _)
  have payload : (reqToBytes ⟨1, which, UInt32.ofNat src.length, off⟩ ++ src).drop 64 = src :=
    List.drop_left' (length_reqToBytes _)
  have long : ¬ (reqToBytes ⟨1, which, UInt32.ofNat src.length, off⟩ ++ src).length < 64 := by
    rw [List.length_append, length_reqToBytes]
    omega
  have announced : (UInt32.ofNat src.length).toNat = src.length % 2 ^ 32 := UInt32.toNat_ofNat'
  have whole : ¬ src.length < src.length % 2 ^ 32 := Nat.not_lt.mpr (Nat.mod_le _ _)
  simp only [serveStream, if_neg long, header, reqFromBytes_toBytes, payload, announced, if_true,
    if_neg whole]

/-- A write stores its bytes, as many as the `u32` of the header counts, and succeeds. -/
theorem oneWrite_eq (which : UInt8) (off : UInt64) (src : Bytes) (store : Ring2Store) :
    oneWrite which off src store =
      (.ok (), Function.update store (which, off) (some (src.take (src.length % 2 ^ 32)))) := by
  simp only [oneWrite, serveStream_write]
  rfl

theorem serveStream_read (which : UInt8) (off : UInt64) (len : Nat) (store : Ring2Store) :
    serveStream (reqToBytes ⟨0, which, UInt32.ofNat len, off⟩) store =
      match store (which, off) with
      | some block => if block.length = len % 2 ^ 32 then (0 :: block, store) else ([1], store)
      | none => ([1], store) := by
  have header : (reqToBytes ⟨0, which, UInt32.ofNat len, off⟩).take 64 =
      reqToBytes ⟨0, which, UInt32.ofNat len, off⟩ :=
    List.take_of_length_le (length_reqToBytes _).le
  have long : ¬ (reqToBytes ⟨0, which, UInt32.ofNat len, off⟩).length < 64 := by
    rw [length_reqToBytes]
    omega
  have announced : (UInt32.ofNat len).toNat = len % 2 ^ 32 := UInt32.toNat_ofNat'
  have other : ¬ (0 : UInt8) = 1 := by decide
  simp only [serveStream, if_neg long, header, reqFromBytes_toBytes, announced, if_neg other,
    if_true]

theorem oneRead_miss {which : UInt8} {off : UInt64} {len : Nat} {store : Ring2Store}
    (miss : ∀ block, store (which, off) = some block → block.length ≠ len % 2 ^ 32) :
    oneRead which off len store = .error "ring2 quic read miss" := by
  have response : serveStream (reqToBytes ⟨0, which, UInt32.ofNat len, off⟩) store =
      ([1], store) := by
    rw [serveStream_read]
    cases found : store (which, off) with
    | none => rfl
    | some block => exact if_neg (miss block found)
  simp only [oneRead, response]
  rfl

theorem oneRead_hit {which : UInt8} {off : UInt64} {len : Nat} {store : Ring2Store}
    {block : Bytes} (found : store (which, off) = some block)
    (same : block.length = len % 2 ^ 32) :
    oneRead which off len store = (readExact len block).map fun (dst, _) => dst := by
  have response : serveStream (reqToBytes ⟨0, which, UInt32.ofNat len, off⟩) store =
      (0 :: block, store) := by
    rw [serveStream_read, found]
    exact if_pos same
  simp only [oneRead, response]
  rfl

/-- A read succeeds with the block at its offset, if that is as long as the buffer. -/
theorem oneRead_eq_ok (which : UInt8) (off : UInt64) (len : Nat) (store : Ring2Store)
    (bytes : Bytes) :
    oneRead which off len store = .ok bytes ↔
      store (which, off) = some bytes ∧ bytes.length = len ∧ len < 2 ^ 32 := by
  constructor
  · intro read
    by_cases hit : ∃ block, store (which, off) = some block ∧ block.length = len % 2 ^ 32
    · obtain ⟨block, found, same⟩ := hit
      rw [oneRead_hit found same, readExact] at read
      by_cases short : block.length < len
      · rw [if_pos short] at read
        cases read
      · rw [if_neg short] at read
        have whole : block.length = len := le_antisymm (same ▸ Nat.mod_le _ _) (not_lt.mp short)
        have fits : len < 2 ^ 32 := by
          rw [← whole, same]
          exact Nat.mod_lt _ (by decide)
        have filled : block.take len = bytes := Except.ok.inj read
        rw [List.take_of_length_le whole.le] at filled
        subst filled
        exact ⟨found, whole, fits⟩
    · rw [oneRead_miss fun block found same => hit ⟨block, found, same⟩] at read
      cases read
  · rintro ⟨found, whole, fits⟩
    rw [oneRead_hit found (whole.trans (Nat.mod_eq_of_lt fits).symm), readExact,
      if_neg (by omega), List.take_of_length_le whole.le]
    rfl

/-- A batch is the same reads one by one. -/
theorem readBatch_eq_ok (reqs : List (UInt8 × UInt64 × Nat)) (store : Ring2Store)
    (results : List Bytes) :
    readBatch reqs store = .ok results ↔
      List.Forall₂ (fun req bytes => oneRead req.1 req.2.1 req.2.2 store = .ok bytes)
        reqs results := by
  induction reqs generalizing results with
  | nil =>
      rw [List.forall₂_nil_left_iff]
      exact ⟨fun read => (Except.ok.inj read).symm, fun empty => empty ▸ rfl⟩
  | cons req rest inductionHypothesis =>
      rcases req with ⟨which, off, len⟩
      have unfolded : readBatch ((which, off, len) :: rest) store =
          (oneRead which off len store).bind fun first =>
            (readBatch rest store).bind fun others => .ok (first :: others) := by
        rw [readBatch, List.mapM_cons]
        rfl
      rw [unfolded]
      cases read : oneRead which off len store with
      | error reason =>
          constructor
          · intro failed
            cases failed
          · rintro (_ | ⟨first, -⟩)
            rw [read] at first
            cases first
      | ok first =>
          cases others : readBatch rest store with
          | error reason =>
              constructor
              · intro failed
                cases failed
              · rintro (_ | ⟨-, remaining⟩)
                rw [(inductionHypothesis _).mpr remaining] at others
                cases others
          | ok found =>
              constructor
              · intro done
                obtain rfl : first :: found = results := Except.ok.inj done
                exact .cons read ((inductionHypothesis found).mp others)
              · rintro (_ | ⟨head, remaining⟩)
                rw [read] at head
                rw [(inductionHypothesis _).mpr remaining] at others
                cases head
                cases others
                rfl

/-! ## The flat streams -/

/-- The streams of a flat backend. -/
abbrev FlatStreams := UInt8 → Cells UInt8

def flatStep (call : Ring2Call) (flat : FlatStreams) : FlatStreams :=
  match call with
  | .write which off src => Function.update flat which ((flat which).write off.toNat src)
  | .read _ _ _ => flat

def flatRun (calls : List Ring2Call) : FlatStreams :=
  serveAll flatStep calls fun _ _ => none

/-- The blocks of one stream of the store. -/
def Ring2Store.stream (store : Ring2Store) (which : UInt8) (off : UInt64) : Option Bytes :=
  store (which, off)

/-- The read returns what the flat streams hold, and succeeds where they have been written. -/
def ReadsFlat (which : UInt8) (off : UInt64) (len : Nat) (store : Ring2Store)
    (flat : FlatStreams) : Prop :=
  (∀ bytes, oneRead which off len store = .ok bytes →
      bytes.length = len ∧ (flat which).Holds off.toNat bytes) ∧
    ((flat which).Covers off.toNat len → ∃ bytes, oneRead which off len store = .ok bytes)

/-- A write replaces a block that is not longer and meets no other; a read of what the blocks
cover is the read of one block. -/
def CallFits (call : Ring2Call) (store : Ring2Store) : Prop :=
  match call with
  | .write which off src =>
      src.length < 2 ^ 32 ∧ Replaces UInt64.toNat (store.stream which) off src
  | .read which off len =>
      BlocksCover UInt64.toNat (store.stream which) off.toNat len →
        ∃ block, store (which, off) = some block ∧ block.length = len

/-- The store and the flat streams after the same calls. -/
structure MirrorsFlat (store : Ring2Store) (flat : FlatStreams) : Prop where
  streams : ∀ which, Mirrors UInt64.toNat (store.stream which) (flat which)
  short : ∀ which off block, store (which, off) = some block → block.length < 2 ^ 32

theorem stream_update (store : Ring2Store) (which other : UInt8) (off : UInt64) (src : Bytes) :
    Ring2Store.stream (Function.update store (which, off) (some src)) other =
      if other = which then Function.update (store.stream which) off (some src)
      else store.stream other := by
  funext position
  by_cases same : other = which
  · subst same
    rw [if_pos rfl]
    by_cases here : position = off
    · subst here
      rw [Ring2Store.stream, Function.update_self, Function.update_self]
    · rw [Ring2Store.stream, Function.update_of_ne (by simp [here]), Function.update_of_ne here]
      rfl
  · rw [if_neg same, Ring2Store.stream, Function.update_of_ne (by simp [same])]
    rfl

theorem MirrorsFlat.step {call : Ring2Call} {store : Ring2Store} {flat : FlatStreams}
    (fits : CallFits call store) (mirrors : MirrorsFlat store flat) :
    MirrorsFlat (ring2Step call store) (flatStep call flat) := by
  cases call with
  | read which off len => exact mirrors
  | write which off src =>
      obtain ⟨short, replaces⟩ := fits
      have stored : ring2Step (.write which off src) store =
          Function.update store (which, off) (some src) := by
        rw [ring2Step, oneWrite_eq, Nat.mod_eq_of_lt short, List.take_length]
      rw [stored]
      constructor
      · intro other
        rw [stream_update]
        by_cases same : other = which
        · subst same
          rw [if_pos rfl, flatStep, Function.update_self]
          exact (mirrors.streams other).write replaces
        · rw [if_neg same, flatStep, Function.update_of_ne same]
          exact mirrors.streams other
      · intro other position block found
        by_cases here : (other, position) = (which, off)
        · rw [here, Function.update_self, Option.some.injEq] at found
          exact found ▸ short
        · rw [Function.update_of_ne here] at found
          exact mirrors.short other position block found

theorem MirrorsFlat.run (calls : List Ring2Call)
    (guarded : GuardedRun ring2Step CallFits calls fun _ => none) :
    MirrorsFlat (ring2Run calls) (flatRun calls) := by
  have general : ∀ (calls : List Ring2Call) (store : Ring2Store) (flat : FlatStreams),
      GuardedRun ring2Step CallFits calls store → MirrorsFlat store flat →
        MirrorsFlat (serveAll ring2Step calls store) (serveAll flatStep calls flat) := by
    intro calls
    induction calls with
    | nil => exact fun _ _ _ mirrors => mirrors
    | cons call rest inductionHypothesis =>
        intro store flat guarded mirrors
        exact inductionHypothesis _ _ guarded.2 (mirrors.step guarded.1)
  exact general calls _ _ guarded
    ⟨fun _ => Mirrors.empty, fun _ _ _ found => nomatch found⟩

theorem MirrorsFlat.reads {which : UInt8} {off : UInt64} {len : Nat} {store : Ring2Store}
    {flat : FlatStreams} (mirrors : MirrorsFlat store flat)
    (fits : CallFits (.read which off len) store) : ReadsFlat which off len store flat := by
  constructor
  · intro bytes read
    obtain ⟨found, length, -⟩ := (oneRead_eq_ok which off len store bytes).mp read
    exact ⟨length, (mirrors.streams which).current off bytes found⟩
  · intro covers
    obtain ⟨block, found, length⟩ := fits (((mirrors.streams which).covers_iff _ _).mp covers)
    exact ⟨block, (oneRead_eq_ok which off len store block).mpr
      ⟨found, length, length ▸ mirrors.short which off block found⟩⟩

/-- In a run of fitting calls every read agrees with the flat streams. -/
theorem ring2_flat {before after : List Ring2Call} {which : UInt8} {off : UInt64} {len : Nat}
    (guarded : GuardedRun ring2Step CallFits (before ++ .read which off len :: after)
      fun _ => none) :
    ReadsFlat which off len (ring2Run before) (flatRun before) := by
  obtain ⟨earlier, fits, -⟩ := GuardedRun.append_iff.mp guarded
  exact (MirrorsFlat.run before earlier).reads fits

/-- A block that a later write overlaps is stale, and two adjoining blocks are not one range. -/
theorem ring2_not_flat :
    ¬ ReadsFlat 0 0 2 (ring2Run [.write 0 0 [1, 2], .write 0 1 [9]])
        (flatRun [.write 0 0 [1, 2], .write 0 1 [9]]) ∧
      ¬ ReadsFlat 0 0 2 (ring2Run [.write 0 0 [1], .write 0 1 [2]])
        (flatRun [.write 0 0 [1], .write 0 1 [2]]) := by
  constructor
  · rintro ⟨returned, -⟩
    have read : oneRead 0 0 2 (ring2Run [.write 0 0 [1, 2], .write 0 1 [9]]) = .ok [1, 2] := rfl
    have held := (returned [1, 2] read).2 1 (by decide)
    exact absurd held (by decide)
  · rintro ⟨-, covered⟩
    have missed : oneRead 0 0 2 (ring2Run [.write 0 0 [1], .write 0 1 [2]]) =
        .error "ring2 quic read miss" := rfl
    obtain ⟨bytes, read⟩ := covered (by decide)
    rw [missed] at read
    cases read

theorem ring2_flat_rewritten :
    ReadsFlat 0 0 2 (ring2Run [.write 0 0 [1, 2], .write 0 0 [3, 4]])
      (flatRun [.write 0 0 [1, 2], .write 0 0 [3, 4]]) := by
  have written : ∀ src : Bytes, src.length = 2 → ∀ store : Ring2Store,
      (∀ other, other ≠ 0 → store (0, other) = none) →
        (∀ block, store (0, 0) = some block → block.length = 2) →
          CallFits (.write 0 0 src) store := by
    intro src length store alone same
    refine ⟨by omega, fun block found => (same block found).le.trans length.ge,
      fun other block apart found => ?_⟩
    rw [Ring2Store.stream, alone other apart] at found
    cases found
  have first : ring2Step (.write 0 0 [1, 2]) (fun _ => none) =
      Function.update (fun _ => none) (0, 0) (some [1, 2]) := by
    rw [ring2Step, oneWrite_eq]
    rfl
  refine @ring2_flat [.write 0 0 [1, 2], .write 0 0 [3, 4]] [] 0 0 2
    ⟨written [1, 2] rfl _ (fun _ _ => rfl) (fun _ found => nomatch found),
      written [3, 4] rfl _ (fun other apart => ?_) (fun block found => ?_),
      fun _ => ⟨[3, 4], rfl, rfl⟩, trivial⟩
  · rw [first, Function.update_of_ne (by simp [apart])]
  · rw [first, Function.update_self, Option.some.injEq] at found
    exact found ▸ rfl

end KairosEngine.Network
