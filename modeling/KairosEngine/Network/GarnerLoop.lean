import Mathlib.Logic.Function.Basic
import KairosEngine.Library.Loop
import KairosEngine.Network.ShardBlock

/-!
# The coordinator's loop

`run_garner_loop` with the tasks it spawns: a close-watcher and an `accept_uni` loop for every
connection and one task for every stream.  A schedule lists what happens in order; between two
of its events a task holds no lock.
-/

namespace KairosEngine.Network

open KairosEngine.Library

structure PendingBlock where
  q1 : Option (List UInt32)
  q2 : Option (List UInt32)
  tokenPos : UInt32
  layerId : UInt32
  deriving DecidableEq

structure GarnerResult where
  seqId : UInt64
  tokenPos : UInt32
  layerId : UInt32
  coeffs : List Int64
  deriving DecidableEq

structure ConnectedPeer where
  shardId : UInt8
  deriving DecidableEq

/-- Where a stream's task stands. -/
inductive Stage
  | receiving
  | refining (block : ResidueBlock)
  | inserting (block : ResidueBlock)
  | removing (seqId : UInt64)
  | sending (result : GarnerResult)
  | finished
  deriving DecidableEq

structure Task (Addr : Type) where
  remoteAddr : Addr
  stage : Stage

/-- An accepted connection, with what is left of the two tasks that serve it. -/
structure Connection (Addr : Type) where
  remoteAddr : Addr
  isOpen : Bool
  watching : Bool
  accepting : Bool

/-- Both cleanup steps of the connection have run. -/
def Connection.CleanedUp {Addr : Type} (conn : Connection Addr) : Prop :=
  conn.watching = false ∧ conn.accepting = false

instance {Addr : Type} (conn : Connection Addr) : Decidable conn.CleanedUp :=
  inferInstanceAs (Decidable (_ ∧ _))

structure Coordinator (Addr : Type) where
  conns : List (Connection Addr)
  peerMap : Addr → Option ConnectedPeer
  tasks : List (Task Addr)
  pending : UInt64 → Option PendingBlock
  /-- What `recv_block` returned so far. -/
  delivered : List ResidueBlock
  /-- What went into the results channel. -/
  sent : List GarnerResult

inductive Event (Addr : Type)
  | accept (addr : Addr)
  | close (conn : Nat)
  /-- The close-watcher wakes up behind `closed().await`. -/
  | watch (conn : Nat)
  /-- `accept_uni` fails and its loop is left. -/
  | leave (conn : Nat)
  | acceptUni (conn : Nat)
  | receive (task : Nat) (stream : Except String Bytes)
  /-- A stream's task runs up to its next lock or `await`. -/
  | resume (task : Nat)

def Coordinator.start {Addr : Type} : Coordinator Addr where
  conns := []
  peerMap := fun _ => none
  tasks := []
  pending := fun _ => none
  delivered := []
  sent := []

/-- The entry that a block finds or opens. -/
def PendingBlock.opened (header : ShardBlockHeader) : PendingBlock where
  q1 := none
  q2 := none
  tokenPos := header.tokenPos
  layerId := header.layerId

def PendingBlock.store (entry : PendingBlock) (block : ResidueBlock) : PendingBlock :=
  if block.header.primeSelector = 0 then { entry with q1 := some block.residues }
  else { entry with q2 := some block.residues }

def PendingBlock.bothArrived (entry : PendingBlock) : Bool :=
  entry.q1.isSome && entry.q2.isSome

section Loop

variable {Addr : Type} [DecidableEq Addr]

/-- `entry(remote_addr).and_modify`: an address without an entry stays without one. -/
def refineShard (block : ResidueBlock) (remoteAddr : Addr)
    (peerMap : Addr → Option ConnectedPeer) : Addr → Option ConnectedPeer :=
  Function.update peerMap remoteAddr <| (peerMap remoteAddr).map fun peer =>
    if peer.shardId = 255 then { peer with shardId := block.header.primeSelector } else peer

variable (nttInit : UInt32 → Option (List UInt32 → List UInt32 → List Int64)) (nttN : UInt32)

/-- The result of an entry that was removed; without a context or with a residue vector of
another length nothing is sent. -/
def garnerResult (seqId : UInt64) (entry : PendingBlock) : Option GarnerResult :=
  match entry.q1, entry.q2 with
  | some q1, some q2 =>
      if q1.length ≠ nttN.toNat ∨ q2.length ≠ nttN.toNat then none
      else (nttInit nttN).map fun crtRecombine =>
        { seqId, tokenPos := entry.tokenPos, layerId := entry.layerId, coeffs := crtRecombine q1 q2 }
  | _, _ => none

/-- The stage behind `pending.remove`. -/
def afterRemove (seqId : UInt64) (removed : Option PendingBlock) : Stage :=
  match removed.bind (garnerResult nttInit nttN seqId) with
  | some result => .sending result
  | none => .finished

/-- The entry of the block's `seq_id` once the block is in it. -/
def insertedEntry (pending : UInt64 → Option PendingBlock) (block : ResidueBlock) : PendingBlock :=
  ((pending block.header.seqId).getD (.opened block.header)).store block

def afterInsert (pending : UInt64 → Option PendingBlock) (block : ResidueBlock) : Stage :=
  if (insertedEntry pending block).bothArrived then .removing block.header.seqId else .finished

def Coordinator.setStage (state : Coordinator Addr) (task : Nat) (stage : Stage) :
    Coordinator Addr :=
  { state with tasks := state.tasks.modify task fun entry => { entry with stage } }

def resumeTask (task : Nat) (remoteAddr : Addr) (stage : Stage) (state : Coordinator Addr) :
    Coordinator Addr :=
  match stage with
  | .receiving => state
  | .refining block =>
      { state.setStage task (.inserting block) with
        peerMap := refineShard block remoteAddr state.peerMap }
  | .inserting block =>
      { state.setStage task (afterInsert state.pending block) with
        pending := Function.update state.pending block.header.seqId
          (some (insertedEntry state.pending block)) }
  | .removing seqId =>
      { state.setStage task (afterRemove nttInit nttN seqId (state.pending seqId)) with
        pending := Function.update state.pending seqId none }
  | .sending result =>
      { state.setStage task .finished with sent := state.sent ++ [result] }
  | .finished => state

def receiveBlock (task : Nat) (stream : Except String Bytes) (state : Coordinator Addr) :
    Coordinator Addr :=
  match recvBlock stream with
  | .ok block =>
      { state.setStage task (.refining block) with delivered := state.delivered ++ [block] }
  | .error _ => state.setStage task .finished

def acceptConnection (addr : Addr) (state : Coordinator Addr) : Coordinator Addr :=
  { state with
    conns := state.conns ++ [⟨addr, true, true, true⟩]
    peerMap := Function.update state.peerMap addr (some ⟨255⟩) }

def removePeer (addr : Addr) (state : Coordinator Addr) : Coordinator Addr :=
  { state with peerMap := Function.update state.peerMap addr none }

/-- An event that cannot happen in the state changes nothing. -/
def garnerStep (event : Event Addr) (state : Coordinator Addr) : Coordinator Addr :=
  match event with
  | .accept addr => acceptConnection addr state
  | .close index =>
      { state with conns := state.conns.modify index fun conn => { conn with isOpen := false } }
  | .watch index =>
      match state.conns[index]? with
      | some conn =>
          if conn.isOpen = false ∧ conn.watching then
            { removePeer conn.remoteAddr state with
              conns := state.conns.modify index fun conn => { conn with watching := false } }
          else state
      | none => state
  | .leave index =>
      match state.conns[index]? with
      | some conn =>
          if conn.isOpen = false ∧ conn.accepting then
            { removePeer conn.remoteAddr state with
              conns := state.conns.modify index fun conn => { conn with accepting := false } }
          else state
      | none => state
  | .acceptUni index =>
      match state.conns[index]? with
      | some conn =>
          if conn.accepting then
            { state with tasks := state.tasks ++ [⟨conn.remoteAddr, .receiving⟩] }
          else state
      | none => state
  | .receive index stream =>
      match state.tasks[index]? with
      | some ⟨_, .receiving⟩ => receiveBlock index stream state
      | _ => state
  | .resume index =>
      match state.tasks[index]? with
      | some task => resumeTask nttInit nttN index task.remoteAddr task.stage state
      | none => state

/-- The state after a schedule. -/
def runGarnerLoop (schedule : List (Event Addr)) : Coordinator Addr :=
  serveAll (garnerStep nttInit nttN) schedule .start

end Loop

end KairosEngine.Network
