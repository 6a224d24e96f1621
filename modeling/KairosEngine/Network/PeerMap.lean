import KairosEngine.Library.TaskPool
import KairosEngine.Network.GarnerLoop

/-!
# The peer map

`peer_map` holds an address from `accept` until the first of the two cleanup steps of a
connection from it.  The steps remove by address only.
-/

namespace KairosEngine.Network

open KairosEngine.Library

section PeerMap

variable {Addr : Type} [DecidableEq Addr]

/-- Some connection that was accepted from the address is still open. -/
def Coordinator.HasOpen (state : Coordinator Addr) (addr : Addr) : Prop :=
  ∃ conn ∈ state.conns, conn.remoteAddr = addr ∧ conn.isOpen = true

instance (state : Coordinator Addr) (addr : Addr) : Decidable (state.HasOpen addr) :=
  inferInstanceAs (Decidable (∃ conn ∈ state.conns, conn.remoteAddr = addr ∧ conn.isOpen = true))

/-- All cleanup steps of closed connections have run. -/
def Coordinator.CleanupsRun (state : Coordinator Addr) : Prop :=
  ∀ conn ∈ state.conns, conn.isOpen = false → conn.CleanedUp

instance (state : Coordinator Addr) : Decidable state.CleanupsRun :=
  inferInstanceAs (Decidable (∀ conn ∈ state.conns, conn.isOpen = false → conn.CleanedUp))

def PeerMapExact (state : Coordinator Addr) : Prop :=
  ∀ addr, (state.peerMap addr).isSome = true ↔ state.HasOpen addr

/-- The address that a cleanup step removes. -/
def Event.removedAddr (event : Event Addr) (state : Coordinator Addr) : Option Addr :=
  match event with
  | .watch index =>
      (state.conns[index]?).bind fun conn =>
        if conn.isOpen = false ∧ conn.watching then some conn.remoteAddr else none
  | .leave index =>
      (state.conns[index]?).bind fun conn =>
        if conn.isOpen = false ∧ conn.accepting then some conn.remoteAddr else none
  | _ => none

/-- No connection from a removed address is open. -/
def RemovesDead (event : Event Addr) (state : Coordinator Addr) : Prop :=
  ∀ addr ∈ event.removedAddr state, ¬ state.HasOpen addr

instance (event : Event Addr) (state : Coordinator Addr) :
    Decidable (RemovesDead event state) :=
  match removed : event.removedAddr state with
  | none => .isTrue (by simp [RemovesDead, removed])
  | some addr =>
      decidable_of_iff (¬ state.HasOpen addr) (by simp [RemovesDead, removed])

/-- What an event does to the connections and to the keys of the peer map. -/
inductive PeerStep (event : Event Addr) (state next : Coordinator Addr) : Prop
  | other (conns : next.conns = state.conns)
      (keys : ∀ addr, (next.peerMap addr).isSome = (state.peerMap addr).isSome)
  | accepted (addr : Addr) (conns : next.conns = state.conns ++ [⟨addr, true, true, true⟩])
      (peers : next.peerMap = Function.update state.peerMap addr (some ⟨255⟩))
  | closed (index : Nat) (peers : next.peerMap = state.peerMap)
      (conns : next.conns = state.conns.modify index fun conn => { conn with isOpen := false })
  | cleaned (index : Nat) (conn : Connection Addr) (done : Connection Addr → Connection Addr)
      (found : state.conns[index]? = some conn)
      (removed : event.removedAddr state = some conn.remoteAddr)
      (same : ∀ conn, (done conn).remoteAddr = conn.remoteAddr ∧ (done conn).isOpen = conn.isOpen)
      (conns : next.conns = state.conns.modify index done)
      (peers : next.peerMap = Function.update state.peerMap conn.remoteAddr none)

theorem isSome_refineShard (block : ResidueBlock) (remoteAddr addr : Addr)
    (peerMap : Addr → Option ConnectedPeer) :
    (refineShard block remoteAddr peerMap addr).isSome = (peerMap addr).isSome := by
  by_cases same : addr = remoteAddr
  · subst same
    rw [refineShard, Function.update_self, Option.isSome_map]
  · rw [refineShard, Function.update_of_ne same]

variable (nttInit : UInt32 → Option (List UInt32 → List UInt32 → List Int64)) (nttN : UInt32)

theorem resumeTask_peers (index : Nat) (remoteAddr : Addr) (stage : Stage)
    (state : Coordinator Addr) :
    (resumeTask nttInit nttN index remoteAddr stage state).conns = state.conns ∧
      ∀ addr, ((resumeTask nttInit nttN index remoteAddr stage state).peerMap addr).isSome =
        (state.peerMap addr).isSome := by
  cases stage with
  | refining block => exact ⟨rfl, fun addr => isSome_refineShard block remoteAddr addr _⟩
  | receiving => exact ⟨rfl, fun _ => rfl⟩
  | inserting block => exact ⟨rfl, fun _ => rfl⟩
  | removing seqId => exact ⟨rfl, fun _ => rfl⟩
  | sending result => exact ⟨rfl, fun _ => rfl⟩
  | finished => exact ⟨rfl, fun _ => rfl⟩

omit [DecidableEq Addr] in
theorem receiveBlock_peers (index : Nat) (stream : Except String Bytes)
    (state : Coordinator Addr) :
    (receiveBlock index stream state).conns = state.conns ∧
      (receiveBlock index stream state).peerMap = state.peerMap := by
  unfold receiveBlock
  cases recvBlock stream with
  | ok block => exact ⟨rfl, rfl⟩
  | error _ => exact ⟨rfl, rfl⟩

theorem garnerStep_peers (event : Event Addr) (state : Coordinator Addr) :
    PeerStep event state (garnerStep nttInit nttN event state) := by
  cases event with
  | accept addr => exact .accepted addr rfl rfl
  | close index => exact .closed index rfl rfl
  | watch index =>
      cases found : state.conns[index]? with
      | none => exact .other (by simp [garnerStep, found]) (by simp [garnerStep, found])
      | some conn =>
          by_cases ready : conn.isOpen = false ∧ conn.watching
          · exact .cleaned index conn (fun conn => { conn with watching := false }) found
              (by simp [Event.removedAddr, found, ready]) (fun _ => ⟨rfl, rfl⟩)
              (by simp [garnerStep, found, ready]) (by simp [garnerStep, found, ready, removePeer])
          · exact .other (by simp only [garnerStep, found, if_neg ready])
              (by simp only [garnerStep, found, if_neg ready, implies_true])
  | leave index =>
      cases found : state.conns[index]? with
      | none => exact .other (by simp [garnerStep, found]) (by simp [garnerStep, found])
      | some conn =>
          by_cases ready : conn.isOpen = false ∧ conn.accepting
          · exact .cleaned index conn (fun conn => { conn with accepting := false }) found
              (by simp [Event.removedAddr, found, ready]) (fun _ => ⟨rfl, rfl⟩)
              (by simp [garnerStep, found, ready]) (by simp [garnerStep, found, ready, removePeer])
          · exact .other (by simp only [garnerStep, found, if_neg ready])
              (by simp only [garnerStep, found, if_neg ready, implies_true])
  | acceptUni index =>
      cases found : state.conns[index]? with
      | none => exact .other (by simp [garnerStep, found]) (by simp [garnerStep, found])
      | some conn =>
          cases accepting : conn.accepting with
          | true =>
              exact .other (by simp [garnerStep, found, accepting])
                (by simp [garnerStep, found, accepting])
          | false =>
              exact .other (by simp [garnerStep, found, accepting])
                (by simp [garnerStep, found, accepting])
  | receive index stream =>
      cases found : state.tasks[index]? with
      | none => exact .other (by simp [garnerStep, found]) (by simp [garnerStep, found])
      | some task =>
          rcases task with ⟨remoteAddr, stage⟩
          cases stage with
          | receiving =>
              obtain ⟨conns, peers⟩ := receiveBlock_peers index stream state
              exact .other (by simpa [garnerStep, found] using conns)
                (by simp [garnerStep, found, peers])
          | _ => exact .other (by simp [garnerStep, found]) (by simp [garnerStep, found])
  | resume index =>
      cases found : state.tasks[index]? with
      | none => exact .other (by simp [garnerStep, found]) (by simp [garnerStep, found])
      | some task =>
          obtain ⟨conns, keys⟩ := resumeTask_peers nttInit nttN index task.remoteAddr task.stage state
          exact .other (by simpa [garnerStep, found] using conns)
            (by simpa [garnerStep, found] using keys)

/-- An address with an open connection is listed, and a listed address is that of a connection
with a cleanup step to come. -/
structure PeersServed (state : Coordinator Addr) : Prop where
  listed : ∀ addr, state.HasOpen addr → (state.peerMap addr).isSome = true
  served : ∀ addr, (state.peerMap addr).isSome = true →
    ∃ conn ∈ state.conns, conn.remoteAddr = addr ∧ ¬ conn.CleanedUp

variable {nttInit nttN}

omit [DecidableEq Addr] in
theorem PeersServed.start : PeersServed (.start : Coordinator Addr) where
  listed := by
    rintro addr ⟨conn, member, -⟩
    cases member
  served := by
    intro addr listed
    cases listed

theorem PeersServed.step {event : Event Addr} {state next : Coordinator Addr}
    (step : PeerStep event state next) (alone : RemovesDead event state)
    (holds : PeersServed state) : PeersServed next := by
  cases step with
  | other conns keys =>
      constructor
      · intro addr present
        rw [keys]
        exact holds.listed addr (by rwa [Coordinator.HasOpen, ← conns])
      · intro addr present
        rw [keys] at present
        rw [conns]
        exact holds.served addr present
  | accepted addr conns peers =>
      constructor
      · rintro other ⟨conn, member, fromAddr, isOpen⟩
        by_cases same : other = addr
        · rw [peers, same, Function.update_self]
          rfl
        · rw [peers, Function.update_of_ne same]
          rw [conns, List.mem_append, List.mem_singleton] at member
          rcases member with earlier | rfl
          · exact holds.listed other ⟨conn, earlier, fromAddr, isOpen⟩
          · exact absurd fromAddr.symm same
      · intro other present
        rw [conns]
        by_cases same : other = addr
        · subst same
          exact ⟨⟨other, true, true, true⟩, by simp, rfl, by simp [Connection.CleanedUp]⟩
        · rw [peers, Function.update_of_ne same] at present
          obtain ⟨conn, member, serving⟩ := holds.served other present
          exact ⟨conn, List.mem_append_left _ member, serving⟩
  | closed index peers conns =>
      constructor
      · rintro addr ⟨conn, member, fromAddr, isOpen⟩
        rw [peers]
        rw [conns] at member
        rcases mem_modify_cases member with stays | ⟨closing, -, rfl⟩
        · exact holds.listed addr ⟨conn, stays, fromAddr, isOpen⟩
        · cases isOpen
      · intro addr present
        rw [peers] at present
        rw [conns]
        exact exists_mem_modify (fun _ _ serving => serving) (fun _ serving => serving)
          (holds.served addr present)
  | cleaned index conn done found removed same conns peers =>
      have dead : ¬ state.HasOpen conn.remoteAddr := alone _ removed
      have opened : ∀ addr, next.HasOpen addr → state.HasOpen addr := by
        rintro addr ⟨moved, member, fromAddr, isOpen⟩
        rw [conns] at member
        rcases mem_modify_cases member with stays | ⟨earlier, here, rfl⟩
        · exact ⟨moved, stays, fromAddr, isOpen⟩
        · rw [(same earlier).1] at fromAddr
          rw [(same earlier).2] at isOpen
          exact ⟨earlier, List.mem_of_getElem? here, fromAddr, isOpen⟩
      constructor
      · intro addr present
        have other : addr ≠ conn.remoteAddr := by
          rintro rfl
          exact dead (opened _ present)
        rw [peers, Function.update_of_ne other]
        exact holds.listed addr (opened addr present)
      · intro addr present
        have other : addr ≠ conn.remoteAddr := by
          rintro rfl
          rw [peers, Function.update_self] at present
          cases present
        rw [peers, Function.update_of_ne other] at present
        rw [conns]
        refine exists_mem_modify ?_ (fun _ serving => serving) (holds.served addr present)
        rintro task here ⟨fromAddr, -⟩
        obtain rfl : conn = task := Option.some.inj (found.symm.trans here)
        exact absurd fromAddr.symm other

omit [DecidableEq Addr] in
/-- Once the closed connections are cleaned up, what is listed is what is open. -/
theorem PeersServed.peerMapExact {state : Coordinator Addr} (holds : PeersServed state)
    (cleaned : state.CleanupsRun) : PeerMapExact state := by
  intro addr
  constructor
  · intro present
    obtain ⟨conn, member, fromAddr, serving⟩ := holds.served addr present
    refine ⟨conn, member, fromAddr, ?_⟩
    cases opened : conn.isOpen with
    | true => rfl
    | false => exact absurd (cleaned conn member opened) serving
  · exact holds.listed addr

/-- As long as no cleanup step meets an open connection from its address, the peer map lists
exactly the addresses with an open connection whenever all cleanup steps have run. -/
theorem peerMap_exact (schedule : List (Event Addr))
    (guarded : GuardedRun (garnerStep nttInit nttN) RemovesDead schedule .start) (count : Nat)
    (cleaned : (runGarnerLoop nttInit nttN (schedule.take count)).CleanupsRun) :
    PeerMapExact (runGarnerLoop nttInit nttN (schedule.take count)) := by
  have holds : PeersServed (runGarnerLoop nttInit nttN (schedule.take count)) :=
    (guarded.take count).preserves
      (fun event state alone holds => holds.step (garnerStep_peers nttInit nttN event state) alone)
      PeersServed.start
  exact holds.peerMapExact cleaned

end PeerMap

/-- A worker that dialed again from its address before its old connection closed. -/
def reconnected : List (Event Nat) :=
  [.accept 7, .accept 7, .close 0, .watch 0, .leave 0]

theorem peerMap_reconnected :
    (runGarnerLoop (fun _ => none) 2 reconnected).CleanupsRun ∧
      ¬ PeerMapExact (runGarnerLoop (fun _ => none) 2 reconnected) := by
  refine ⟨by decide, fun listed => ?_⟩
  have isOpen : (runGarnerLoop (fun _ => none) 2 reconnected).HasOpen 7 := by decide
  have absent : ((runGarnerLoop (fun _ => none) 2 reconnected).peerMap 7).isSome = false := rfl
  have present := (listed 7).mpr isOpen
  rw [absent] at present
  cases present

theorem peerMap_exact_closed :
    PeerMapExact (runGarnerLoop (fun _ => none) 2
      ([.accept 7, .close 0, .watch 0, .leave 0, .accept 7, .accept 8, .close 2, .leave 2,
        .watch 2].take 9)) :=
  @peerMap_exact Nat _ _ _ _ (by decide) 9 (by decide)

end KairosEngine.Network
