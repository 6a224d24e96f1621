import KairosEngine.Swarm.Handshake

/-!
# Handshakes under attack

The attacker opens any number of sessions with the honest nodes and delivers what it likes, in any
order.  What a session signs is what it was handed, and what it learns about its peer is that the
peer signed the nonce somewhere.
-/

namespace KairosEngine.Swarm

open KairosEngine.Library KairosEngine.Daemon

section Runs

variable {Key SecretKey : Type}

abbrev World (Key SecretKey : Type) := List (Session Key SecretKey)

/-- A node opens a session, or a session reads a frame; `none` is the end of its stream. -/
inductive Event (Key SecretKey : Type)
  | start (me : Identity SecretKey) (roster : Roster Key) (nonce : Nonce) (role : Role)
  | deliver (session : Nat) (frame : Option Bytes)

variable (signing : Signing Key SecretKey)

def happen (event : Event Key SecretKey) (world : World Key SecretKey) : World Key SecretKey :=
  match event with
  | .start me roster nonce role => world ++ [Session.start me roster nonce role]
  | .deliver index frame => world.modify index fun session => session.receive signing frame

/-- No session gets to sign a text of the shape of a signing payload. -/
def Innocent (tables : Unicode) (event : Event Key SecretKey) (world : World Key SecretKey) :
    Prop :=
  match event with
  | .start _ _ _ _ => True
  | .deliver index frame =>
      ∀ session bytes peerId challenge, world[index]? = some session → frame = some bytes →
        session.Challenged signing bytes peerId challenge → payloadShaped tables challenge = false

/-- A signature that verifies under an honest key is on something the node has signed. -/
def Unforged (honest : Identity SecretKey → Prop) (event : Event Key SecretKey)
    (world : World Key SecretKey) : Prop :=
  match event with
  | .start _ _ _ _ => True
  | .deliver _ frame =>
      ∀ node, honest node → ∀ message sig, frame = some sig.bytes →
        signing.verify (signing.publicKey node.sk) message sig = true →
          ∃ session ∈ world, session.me = node ∧ ∃ peerId, (peerId, message) ∈ session.signed

variable {signing}

/-- The sessions after an event: the old ones extended, and perhaps a new one. -/
theorem mem_happen {event : Event Key SecretKey} {world : World Key SecretKey}
    {after : Session Key SecretKey} (member : after ∈ happen signing event world) :
    after ∈ world ∨
      (∃ me roster nonce role, after = Session.start me roster nonce role) ∨
      ∃ index frame before, event = .deliver index frame ∧ world[index]? = some before ∧
        after = before.receive signing frame := by
  cases event with
  | start me roster nonce role =>
      rcases List.mem_append.mp member with old | new
      · exact .inl old
      · exact .inr (.inl ⟨me, roster, nonce, role, List.mem_singleton.mp new⟩)
  | deliver index frame =>
      obtain ⟨place, found⟩ := List.mem_iff_getElem?.mp member
      rw [happen, List.getElem?_modify] at found
      by_cases here : index = place
      · subst here
        simp only [if_true, Option.map_eq_map] at found
        obtain ⟨before, old, rfl⟩ := Option.map_eq_some_iff.mp found
        exact .inr (.inr ⟨index, frame, before, rfl, old, rfl⟩)
      · simp only [if_neg here, Option.map_eq_map, Option.map_id_fun', id_eq] at found
        exact .inl (List.mem_of_getElem? found)

/-- No session is lost. -/
theorem happen_extends {event : Event Key SecretKey} {world : World Key SecretKey}
    {before : Session Key SecretKey} (member : before ∈ world) :
    ∃ after ∈ happen signing event world, before.Extends after := by
  cases event with
  | start me roster nonce role =>
      exact ⟨before, List.mem_append_left _ member, rfl, rfl, rfl, fun _ signed => signed⟩
  | deliver index frame =>
      obtain ⟨place, found⟩ := List.mem_iff_getElem?.mp member
      by_cases here : index = place
      · refine ⟨before.receive signing frame, List.mem_of_getElem? (i := place) ?_,
          Session.receive_extends frame⟩
        rw [happen, List.getElem?_modify, found]
        simp only [if_pos here]
        rfl
      · refine ⟨before, List.mem_of_getElem? (i := place) ?_, rfl, rfl, rfl,
          fun _ signed => signed⟩
        rw [happen, List.getElem?_modify, found]
        simp only [if_neg here]
        rfl

/-! ## What gets signed -/

theorem happen_innocent {tables : Unicode} {event : Event Key SecretKey}
    {world : World Key SecretKey} (innocent : Innocent signing tables event world)
    (clean : ∀ session ∈ world, ∀ entry ∈ session.signed, payloadShaped tables entry.2 = false) :
    ∀ session ∈ happen signing event world, ∀ entry ∈ session.signed,
      payloadShaped tables entry.2 = false := by
  intro session member entry signed
  rcases mem_happen member with old | ⟨me, roster, nonce, role, rfl⟩ |
    ⟨index, frame, before, rfl, found, rfl⟩
  · exact clean session old entry signed
  · cases role with
    | client => cases signed
    | server => cases signed
  · rcases Session.receive_signed signed with earlier | ⟨bytes, rfl, challenged⟩
    · exact clean before (List.mem_of_getElem? found) entry earlier
    · exact innocent before bytes entry.1 entry.2 found rfl challenged

/-- Where no session is challenged with a text of that shape, none ever signs what is the signing
payload of an object. -/
theorem handshakes_sign_no_payload {tables : Unicode} {events : List (Event Key SecretKey)}
    (innocent : GuardedRun (happen signing) (Innocent signing tables) events []) :
    ∀ session ∈ serveAll (happen signing) events [], ∀ entry ∈ session.signed,
      ∀ addr body, entry.2 ≠ signingPayload tables addr body := by
  have clean := innocent.preserves (fun _ _ => happen_innocent) fun _ nobody =>
    absurd nobody List.not_mem_nil
  intro session member entry signed addr body payload
  have shaped := clean session member entry signed
  rw [payloadShaped_iff.mpr ⟨addr, body, payload⟩] at shaped
  cases shaped

end Runs

/-! ## A session that signs an object -/

/-- A digest of zeros, and signatures that spell a message of the length of a nonce. -/
def spellingSigning : Signing UInt8 UInt8 where
  sha256 _ := ⟨List.replicate 32 0, List.length_replicate⟩
  publicKey := id
  sign sk message :=
    if spelled : message.length = 32 then
      ⟨message ++ List.replicate 31 0 ++ [sk], by simp [spelled]⟩
    else ⟨List.replicate 63 1 ++ [sk], by simp⟩
  verify vk message sig :=
    decide (sig =
      if spelled : message.length = 32 then
        ⟨message ++ List.replicate 31 0 ++ [vk], by simp [spelled]⟩
      else ⟨List.replicate 63 1 ++ [vk], by simp⟩)
  correct _ _ := decide_eq_true rfl

def nodeA : Identity UInt8 := ⟨"a".toList, 1⟩

def nodeB : Identity UInt8 := ⟨"b".toList, 2⟩

/-- Three members; nobody uses the key of the last one. -/
def threeMembers : Roster UInt8 := fun id =>
  if id = "a".toList then some 1
  else if id = "b".toList then some 2
  else if id = "c".toList then some 3
  else none

def constantNonce (byte : UInt8) : Nonce := ⟨List.replicate 32 byte, List.length_replicate⟩

def zeroAddr : Text := List.replicate 16 '0'

/-- The object that the last frame of the answer makes. -/
def mintedText (sig : Bytes) : Text :=
  "---\nmem_signer: b\nmem_sig: ".toList ++ hexEncode sig ++ "\n---\nforged\n".toList

def oracleEvents : List (Event UInt8 UInt8) :=
  [.start nodeB threeMembers (constantNonce 7) .server,
    .deliver 0 (some (utf8 "c".toList)),
    .deliver 0 (some (signingPayload Unicode.ascii zeroAddr "forged".toList))]

/-- Whoever knows an id on the roster has a server sign an object, without a key. -/
theorem server_signs_payload :
    (serveAll (happen spellingSigning) oracleEvents []).map Session.signed =
        [[("c".toList, signingPayload Unicode.ascii zeroAddr "forged".toList)]] ∧
      (serveAll (happen spellingSigning) oracleEvents []).map
          (fun session => session.sent.getLast?.map fun sig =>
            accept Unicode.ascii spellingSigning.toCrypto zeroAddr (mintedText sig)
              (some threeMembers)) =
        [some (.ok .content)] := by
  constructor
  · rfl
  · decide +kernel

/-- A server that is challenged with a nonce. -/
def nonceEvents : List (Event UInt8 UInt8) :=
  [.start nodeB threeMembers (constantNonce 7) .server,
    .deliver 0 (some (utf8 "c".toList)),
    .deliver 0 (some (List.replicate 32 5))]

theorem server_signs_nonce :
    (serveAll (happen spellingSigning) nonceEvents []).map Session.signed =
        [[("c".toList, List.replicate 32 5)]] ∧
      ∀ session ∈ serveAll (happen spellingSigning) nonceEvents [], ∀ entry ∈ session.signed,
        ∀ addr body, entry.2 ≠ signingPayload Unicode.ascii addr body := by
  refine ⟨rfl, ?_⟩
  apply handshakes_sign_no_payload
  refine ⟨trivial, ?_, ?_, trivial⟩
  · rintro session bytes peerId challenge found - (⟨reads, _⟩ | ⟨reads, _⟩)
    · cases found
      cases reads
    · cases found
      cases reads
  · rintro session bytes peerId challenge found same (⟨reads, _⟩ | ⟨reads, _⟩)
    · cases same
      rfl
    · cases found
      cases reads

section Runs

variable {Key SecretKey : Type} {signing : Signing Key SecretKey}

/-! ## What is known about the peer -/

/-- A session of the node has signed the bytes, for a peer id on its roster. -/
def SignedBy (world : World Key SecretKey) (node : Identity SecretKey) (message : Bytes) : Prop :=
  ∃ session ∈ world, session.me = node ∧
    ∃ peerId, (peerId, message) ∈ session.signed ∧ (session.roster peerId).isSome = true

theorem SignedBy.happen {world : World Key SecretKey} {node : Identity SecretKey} {message : Bytes}
    (signed : SignedBy world node message) (event : Event Key SecretKey) :
    SignedBy (happen signing event world) node message := by
  obtain ⟨session, member, me, peerId, entry, rostered⟩ := signed
  have kept : ∃ after ∈ Swarm.happen signing event world, session.Extends after :=
    happen_extends member
  obtain ⟨after, found, extended⟩ := kept
  exact ⟨after, found, extended.me.trans me, peerId, extended.signed _ entry,
    extended.roster ▸ rostered⟩

/-- Signatures are made for ids on the roster, and a verified honest peer has signed the nonce. -/
structure Backed (signing : Signing Key SecretKey) (honest : Identity SecretKey → Prop)
    (world : World Key SecretKey) (session : Session Key SecretKey) : Prop where
  rostered : ∀ entry ∈ session.signed, (session.roster entry.1).isSome = true
  signed : ∀ peer, honest peer → session.verified = some peer.nodeId →
    session.roster peer.nodeId = some (signing.publicKey peer.sk) →
      SignedBy world peer session.nonce.bytes

theorem happen_backed {honest : Identity SecretKey → Prop} {event : Event Key SecretKey}
    {world : World Key SecretKey} (unforged : Unforged signing honest event world)
    (backed : ∀ session ∈ world, Backed signing honest world session) :
    ∀ session ∈ happen signing event world,
      Backed signing honest (happen signing event world) session := by
  intro session member
  rcases mem_happen member with old | ⟨me, roster, nonce, role, rfl⟩ |
    ⟨index, frame, before, rfl, found, rfl⟩
  · have kept := backed session old
    refine ⟨kept.rostered, fun peer trusted verified known => ?_⟩
    exact (kept.signed peer trusted verified known).happen event
  · constructor
    · intro entry signed
      cases role with
      | client => cases signed
      | server => cases signed
    · intro peer _ verified
      cases role with
      | client => cases verified
      | server => cases verified
  · have kept := backed before (List.mem_of_getElem? found)
    have extended : before.Extends (before.receive signing frame) := Session.receive_extends frame
    constructor
    · intro entry signed
      rw [extended.roster]
      rcases Session.receive_signed signed with earlier | ⟨bytes, _, challenged⟩
      · exact kept.rostered entry earlier
      · exact challenged.rostered
    · intro peer trusted verified known
      rw [extended.roster] at known
      rw [extended.nonce]
      apply SignedBy.happen
      rcases Session.receive_verified verified with earlier | ⟨bytes, rfl, vk, sig, listed, same, holds⟩
      · exact kept.signed peer trusted earlier known
      · cases listed.symm.trans known
        obtain ⟨other, there, me, peerId, entry⟩ :=
          unforged peer trusted before.nonce.bytes sig (congrArg some same) holds
        exact ⟨other, there, me, peerId, entry, (backed other there).rostered _ entry⟩

/-- Agreement on the peers and on both nonces. -/
def Agreement (signing : Signing Key SecretKey) (honest : Identity SecretKey → Prop)
    (world : World Key SecretKey) : Prop :=
  ∀ session ∈ world, ∀ peer, honest peer →
    session.roster peer.nodeId = some (signing.publicKey peer.sk) →
      session.result = some (.ok peer.nodeId) →
        ∃ other ∈ world, other.me = peer ∧ other.role ≠ session.role ∧
          (session.me.nodeId, session.nonce.bytes) ∈ other.signed ∧
          (peer.nodeId, other.nonce.bytes) ∈ session.signed

end Runs

/-- The nonce of a client of the first node goes to the second one under the name of a third
member, and the signature goes back. -/
def relayEvents : List (Event UInt8 UInt8) :=
  [.start nodeA threeMembers (constantNonce 5) .client,
    .start nodeB threeMembers (constantNonce 7) .server,
    .deliver 1 (some (utf8 "c".toList)),
    .deliver 1 (some (List.replicate 32 5)),
    .deliver 0 (some (utf8 "b".toList)),
    .deliver 0 (some (List.replicate 32 7)),
    .deliver 0 (some (List.replicate 32 5 ++ List.replicate 31 0 ++ [2])),
    .deliver 0 (some (utf8 "OK".toList))]

/-- A frame that is too short for a signature forges nothing. -/
theorem unforged_short {honest : Identity UInt8 → Prop} {world : World UInt8 UInt8} {index : Nat}
    {frame : Bytes} (short : frame.length ≠ 64) :
    Unforged spellingSigning honest (.deliver index (some frame)) world := by
  intro node _ message sig same
  cases same
  exact absurd sig.size short

/-- The frame that is relayed is a signature of the second node over the nonce. -/
theorem relayed_signature {vk : UInt8} {message : Bytes} {sig : Signature}
    (relayed : sig.bytes = List.replicate 32 5 ++ List.replicate 31 0 ++ [2])
    (verifies : spellingSigning.verify vk message sig = true) :
    vk = 2 ∧ message = List.replicate 32 5 := by
  have same := of_decide_eq_true verifies
  by_cases spelled : message.length = 32
  · rw [dif_pos spelled] at same
    rw [same] at relayed
    obtain ⟨front, last⟩ := List.append_inj' relayed rfl
    exact ⟨List.singleton_inj.mp last, (List.append_inj' front rfl).1⟩
  · rw [dif_neg spelled] at same
    rw [same] at relayed
    cases relayed

theorem relay_unforged :
    GuardedRun (happen spellingSigning)
      (Unforged spellingSigning fun node => node = nodeA ∨ node = nodeB) relayEvents [] := by
  refine ⟨trivial, trivial, unforged_short (by decide), unforged_short (by decide),
    unforged_short (by decide), unforged_short (by decide), ?_, unforged_short (by decide),
    trivial⟩
  intro node trusted message sig same verifies
  obtain ⟨key, rfl⟩ := relayed_signature (Option.some.inj same).symm verifies
  have second : node = nodeB := by
    rcases trusted with rfl | rfl
    · cases key
    · rfl
  subst second
  have signed : ((serveAll (happen spellingSigning) (relayEvents.take 6) [])[1]?).map
      (fun session => (session.me, session.signed)) =
        some (nodeB, [("c".toList, List.replicate 32 5)]) := rfl
  obtain ⟨session, found, facts⟩ := Option.map_eq_some_iff.mp signed
  obtain ⟨me, entries⟩ := Prod.mk.inj facts
  exact ⟨session, List.mem_of_getElem? found, me, "c".toList, entries ▸ List.mem_singleton_self _⟩

theorem relay_accepts :
    ∃ session ∈ serveAll (happen spellingSigning) relayEvents [], session.me = nodeA ∧
      session.nonce.bytes = List.replicate 32 5 ∧ session.roster "b".toList = some 2 ∧
      session.result = some (.ok "b".toList) := by
  have accepts : ((serveAll (happen spellingSigning) relayEvents [])[0]?).map
      (fun session => ((session.me, session.nonce.bytes), session.roster "b".toList,
        session.result)) =
      some ((nodeA, List.replicate 32 5), some 2, some (.ok "b".toList)) := rfl
  obtain ⟨session, found, facts⟩ := Option.map_eq_some_iff.mp accepts
  simp only [Prod.mk.injEq] at facts
  exact ⟨session, List.mem_of_getElem? found, facts.1.1, facts.1.2, facts.2⟩

end KairosEngine.Swarm
