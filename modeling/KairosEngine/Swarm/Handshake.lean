import KairosEngine.Library.Loop
import KairosEngine.Swarm.Objects

/-!
# The roster handshake

`client_auth` and `server_auth` as the frames they read, in any number of sessions over streams
that the attacker controls.  Each side signs the other's challenge with the key that also signs
objects.
-/

namespace KairosEngine.Swarm

open KairosEngine.Library KairosEngine.Daemon

/-! ## The two sides -/

/-- The signature scheme with its secret keys. -/
structure Signing (Key SecretKey : Type) extends Crypto Key where
  publicKey : SecretKey → Key
  sign : SecretKey → Bytes → Signature
  correct : ∀ sk message, verify (publicKey sk) message (sign sk message) = true

structure Identity (SecretKey : Type) where
  nodeId : Text
  sk : SecretKey
  deriving DecidableEq

structure Nonce where
  bytes : Bytes
  size : bytes.length = 32

inductive AuthError
  | closed
  | badId
  | badSignature
  | untrustedSigner
  | sigInvalid
  | peerRejected
  deriving DecidableEq

inductive ClientPhase
  | readId
  | readNonce (peerId : Text)
  | readSig (peerId : Text) (ns : Bytes)
  | readOk (peerId : Text)
  | returned (result : Except AuthError Text)

inductive ServerPhase {Key : Type} (roster : Roster Key)
  | readId
  | readNonce (peerId : Text)
  | readSig (peerId : Text) (vk : Key) (known : roster peerId = some vk)
  | returned (result : Except AuthError Text)

/-- The peer whose signature over the own nonce was verified. -/
def ClientPhase.verified : ClientPhase → Option Text
  | .readOk peerId => some peerId
  | .returned (.ok peerId) => some peerId
  | _ => none

def ServerPhase.verified {Key : Type} {roster : Roster Key} : ServerPhase roster → Option Text
  | .returned (.ok peerId) => some peerId
  | _ => none

/-- What reading a frame leads to: the frames written, and what was signed for whom. -/
structure Effect (Phase : Type) where
  phase : Phase
  sent : List Bytes
  signed : Option (Text × Bytes)

def Effect.quiet {Phase : Type} (phase : Phase) : Effect Phase := ⟨phase, [], none⟩

section Sides

variable {Key SecretKey : Type} (signing : Signing Key SecretKey) (me : Identity SecretKey)
  (roster : Roster Key) (nonce : Nonce)

/-- `client_auth` behind the id and the nonce that it writes first. -/
def clientAuth : ClientPhase → Bytes → Effect ClientPhase
  | .readId, frame =>
      match fromUtf8 frame with
      | some peerId => .quiet (.readNonce peerId)
      | none => .quiet (.returned (.error .badId))
  | .readNonce peerId, frame => .quiet (.readSig peerId frame)
  | .readSig peerId ns, frame =>
      match Signature.fromSlice frame with
      | none => .quiet (.returned (.error .badSignature))
      | some sig =>
          match roster peerId with
          | none => .quiet (.returned (.error .untrustedSigner))
          | some vk =>
              if signing.verify vk nonce.bytes sig then
                ⟨.readOk peerId, [(signing.sign me.sk ns).bytes], some (peerId, ns)⟩
              else .quiet (.returned (.error .sigInvalid))
  | .readOk peerId, frame =>
      .quiet (.returned (if frame = utf8 "OK".toList then .ok peerId else .error .peerRejected))
  | .returned result, _ => .quiet (.returned result)

/-- `server_auth`: the challenge is signed before the peer has proved anything. -/
def serverAuth : ServerPhase roster → Bytes → Effect (ServerPhase roster)
  | .readId, frame =>
      match fromUtf8 frame with
      | some peerId => .quiet (.readNonce peerId)
      | none => .quiet (.returned (.error .badId))
  | .readNonce peerId, nc =>
      match known : roster peerId with
      | none => ⟨.returned (.error .untrustedSigner), [utf8 "NO".toList], none⟩
      | some vk =>
          ⟨.readSig peerId vk known,
            [utf8 me.nodeId, nonce.bytes, (signing.sign me.sk nc).bytes], some (peerId, nc)⟩
  | .readSig peerId vk _, frame =>
      match Signature.fromSlice frame with
      | none => .quiet (.returned (.error .badSignature))
      | some sig =>
          if signing.verify vk nonce.bytes sig then
            ⟨.returned (.ok peerId), [utf8 "OK".toList], none⟩
          else ⟨.returned (.error .sigInvalid), [utf8 "NO".toList], none⟩
  | .returned result, _ => .quiet (.returned result)

/-- The frame is a signature of the named peer over the nonce. -/
def Proves (peerId : Text) (frame : Bytes) : Prop :=
  ∃ vk sig, roster peerId = some vk ∧ frame = sig.bytes ∧ signing.verify vk nonce.bytes sig = true

theorem Signature.fromSlice_eq_some {bytes : Bytes} {sig : Signature}
    (read : Signature.fromSlice bytes = some sig) : bytes = sig.bytes := by
  unfold Signature.fromSlice at read
  split at read
  next => exact Option.some.inj read ▸ rfl
  next => cases read

/-- What reading the peer's signature leads to in a client. -/
theorem clientAuth_readSig (peerId : Text) (ns frame : Bytes) :
    (∃ error, clientAuth signing me roster nonce (.readSig peerId ns) frame =
        .quiet (.returned (.error error))) ∨
      Proves signing roster nonce peerId frame ∧
        clientAuth signing me roster nonce (.readSig peerId ns) frame =
          ⟨.readOk peerId, [(signing.sign me.sk ns).bytes], some (peerId, ns)⟩ := by
  unfold clientAuth
  simp only
  split
  next => exact .inl ⟨_, rfl⟩
  next sig read =>
    split
    next => exact .inl ⟨_, rfl⟩
    next vk known =>
      split
      next verifies =>
        exact .inr ⟨⟨vk, sig, known, Signature.fromSlice_eq_some read, verifies⟩, rfl⟩
      next => exact .inl ⟨_, rfl⟩

variable {signing me roster nonce}

theorem clientAuth_signed {phase : ClientPhase} {frame : Bytes} {entry : Text × Bytes}
    (signed : (clientAuth signing me roster nonce phase frame).signed = some entry) :
    phase = .readSig entry.1 entry.2 ∧ Proves signing roster nonce entry.1 frame := by
  cases phase with
  | readId =>
      unfold clientAuth at signed
      simp only at signed
      split at signed <;> cases signed
  | readNonce peerId => cases signed
  | readSig peerId ns =>
      rcases clientAuth_readSig signing me roster nonce peerId ns frame with ⟨error, refused⟩ | ⟨proves, moved⟩
      · rw [refused] at signed
        cases signed
      · rw [moved] at signed
        cases signed
        exact ⟨rfl, proves⟩
  | readOk peerId => cases signed
  | returned result => cases signed

theorem clientAuth_verified {phase : ClientPhase} {frame : Bytes} {peerId : Text}
    (verified : (clientAuth signing me roster nonce phase frame).phase.verified = some peerId) :
    phase.verified = some peerId ∨ Proves signing roster nonce peerId frame := by
  cases phase with
  | readId =>
      unfold clientAuth at verified
      simp only at verified
      split at verified <;> cases verified
  | readNonce peerId => cases verified
  | readSig other ns =>
      rcases clientAuth_readSig signing me roster nonce other ns frame with ⟨error, refused⟩ | ⟨proves, moved⟩
      · rw [refused] at verified
        cases verified
      · rw [moved] at verified
        cases verified
        exact .inr proves
  | readOk other =>
      apply Or.inl
      unfold clientAuth Effect.quiet at verified
      simp only at verified
      split at verified
      next => exact verified
      next => cases verified
  | returned result => exact .inl verified

theorem serverAuth_signed {phase : ServerPhase roster} {frame : Bytes} {entry : Text × Bytes}
    (signed : (serverAuth signing me roster nonce phase frame).signed = some entry) :
    phase = .readNonce entry.1 ∧ entry.2 = frame ∧ (roster entry.1).isSome = true := by
  cases phase with
  | readId =>
      unfold serverAuth at signed
      simp only at signed
      split at signed <;> cases signed
  | readNonce peerId =>
      unfold serverAuth at signed
      simp only at signed
      split at signed
      next => cases signed
      next vk known =>
        cases signed
        exact ⟨rfl, rfl, by rw [known, Option.isSome_some]⟩
  | readSig peerId vk known =>
      unfold serverAuth at signed
      simp only at signed
      split at signed
      next => cases signed
      next => split at signed <;> cases signed
  | returned result => cases signed

theorem serverAuth_verified {phase : ServerPhase roster} {frame : Bytes} {peerId : Text}
    (verified : (serverAuth signing me roster nonce phase frame).phase.verified = some peerId) :
    phase.verified = some peerId ∨ Proves signing roster nonce peerId frame := by
  cases phase with
  | readId =>
      unfold serverAuth at verified
      simp only at verified
      split at verified <;> cases verified
  | readNonce other =>
      unfold serverAuth at verified
      simp only at verified
      split at verified <;> cases verified
  | readSig other vk known =>
      unfold serverAuth at verified
      simp only at verified
      split at verified
      next => cases verified
      next sig read =>
        split at verified
        next verifies =>
          cases verified
          exact .inr ⟨vk, sig, known, Signature.fromSlice_eq_some read, verifies⟩
        next => cases verified
  | returned result => exact .inl verified

end Sides

/-! ## Sessions -/

inductive Role
  | client
  | server
  deriving DecidableEq

inductive Phase {Key : Type} (roster : Roster Key)
  | client (phase : ClientPhase)
  | server (phase : ServerPhase roster)

structure Session (Key SecretKey : Type) where
  me : Identity SecretKey
  roster : Roster Key
  nonce : Nonce
  phase : Phase roster
  sent : List Bytes
  /-- The bytes signed so far, and the peer id they were signed for. -/
  signed : List (Text × Bytes)

namespace Session

variable {Key SecretKey : Type}

def start (me : Identity SecretKey) (roster : Roster Key) (nonce : Nonce) :
    Role → Session Key SecretKey
  | .client => ⟨me, roster, nonce, .client .readId, [utf8 me.nodeId, nonce.bytes], []⟩
  | .server => ⟨me, roster, nonce, .server .readId, [], []⟩

def role (session : Session Key SecretKey) : Role :=
  match session.phase with
  | .client _ => .client
  | .server _ => .server

def result (session : Session Key SecretKey) : Option (Except AuthError Text) :=
  match session.phase with
  | .client (.returned result) => some result
  | .server (.returned result) => some result
  | _ => none

def verified (session : Session Key SecretKey) : Option Text :=
  match session.phase with
  | .client phase => phase.verified
  | .server phase => phase.verified

/-- The stream ends, or a frame is too large to be read. -/
def close (session : Session Key SecretKey) : Session Key SecretKey :=
  match session.phase with
  | .client (.returned _) => session
  | .client _ => { session with phase := .client (.returned (.error .closed)) }
  | .server (.returned _) => session
  | .server _ => { session with phase := .server (.returned (.error .closed)) }

def receive (signing : Signing Key SecretKey) (session : Session Key SecretKey) :
    Option Bytes → Session Key SecretKey
  | none => session.close
  | some frame =>
      match session.phase with
      | .client phase =>
          let effect := clientAuth signing session.me session.roster session.nonce phase frame
          { session with
            phase := .client effect.phase
            sent := session.sent ++ effect.sent
            signed := session.signed ++ effect.signed.toList }
      | .server phase =>
          let effect := serverAuth signing session.me session.roster session.nonce phase frame
          { session with
            phase := .server effect.phase
            sent := session.sent ++ effect.sent
            signed := session.signed ++ effect.signed.toList }

/-- What a session gets to sign when it reads a frame: as a server the frame itself, for every
peer id on the roster; as a client the challenge read before, for a peer that proves itself. -/
inductive Challenged (signing : Signing Key SecretKey) (session : Session Key SecretKey)
    (frame : Bytes) : Text → Bytes → Prop
  | server {peerId : Text} (reads : session.phase = .server (.readNonce peerId))
      (rostered : (session.roster peerId).isSome = true) :
      Challenged signing session frame peerId frame
  | client {peerId : Text} {ns : Bytes} (reads : session.phase = .client (.readSig peerId ns))
      (proves : Proves signing session.roster session.nonce peerId frame) :
      Challenged signing session frame peerId ns

variable {signing : Signing Key SecretKey} {session : Session Key SecretKey}

theorem Challenged.rostered {frame challenge : Bytes} {peerId : Text}
    (challenged : Challenged signing session frame peerId challenge) :
    (session.roster peerId).isSome = true := by
  cases challenged with
  | server reads rostered => exact rostered
  | client reads proves =>
      obtain ⟨vk, _, known, _⟩ := proves
      rw [known, Option.isSome_some]

/-- Closing changes the phase only, and proves nothing. -/
theorem close_cases (session : Session Key SecretKey) :
    session.close = session ∨
      ∃ phase, session.close = { session with phase } ∧ session.close.verified = none := by
  unfold close
  split
  next => exact .inl rfl
  next => exact .inr ⟨_, rfl, rfl⟩
  next => exact .inl rfl
  next => exact .inr ⟨_, rfl, rfl⟩

/-- The identity, the roster and the nonce stay, and what was signed stays signed. -/
structure Extends (before after : Session Key SecretKey) : Prop where
  me : after.me = before.me
  roster : after.roster = before.roster
  nonce : after.nonce = before.nonce
  signed : ∀ entry ∈ before.signed, entry ∈ after.signed

theorem receive_extends (frame : Option Bytes) :
    Extends session (session.receive signing frame) := by
  cases frame with
  | none =>
      rcases session.close_cases with same | ⟨phase, closed, _⟩
      · rw [receive, same]
        exact ⟨rfl, rfl, rfl, fun _ member => member⟩
      · rw [receive, closed]
        exact ⟨rfl, rfl, rfl, fun _ member => member⟩
  | some frame =>
      unfold receive
      simp only
      split
      next => exact ⟨rfl, rfl, rfl, fun _ member => List.mem_append_left _ member⟩
      next => exact ⟨rfl, rfl, rfl, fun _ member => List.mem_append_left _ member⟩

/-- Whatever a session has signed it had signed before, or it is what the frame brought up. -/
theorem receive_signed {frame : Option Bytes} {entry : Text × Bytes}
    (signed : entry ∈ (session.receive signing frame).signed) :
    entry ∈ session.signed ∨
      ∃ bytes, frame = some bytes ∧ Challenged signing session bytes entry.1 entry.2 := by
  cases frame with
  | none =>
      apply Or.inl
      rcases session.close_cases with same | ⟨phase, closed, _⟩
      · exact same ▸ signed
      · rw [receive, closed] at signed
        exact signed
  | some frame =>
      unfold receive at signed
      simp only at signed
      split at signed
      next phase reads =>
        rcases List.mem_append.mp signed with before | now
        · exact .inl before
        · obtain ⟨rfl, proves⟩ := clientAuth_signed (Option.mem_toList.mp now)
          exact .inr ⟨frame, rfl, .client reads proves⟩
      next phase reads =>
        rcases List.mem_append.mp signed with before | now
        · exact .inl before
        · obtain ⟨rfl, challenge, rostered⟩ := serverAuth_signed (Option.mem_toList.mp now)
          exact .inr ⟨frame, rfl, challenge ▸ .server reads rostered⟩

/-- A peer counts as verified only by a signature over the nonce of the session. -/
theorem receive_verified {frame : Option Bytes} {peerId : Text}
    (verified : (session.receive signing frame).verified = some peerId) :
    session.verified = some peerId ∨
      ∃ bytes, frame = some bytes ∧ Proves signing session.roster session.nonce peerId bytes := by
  cases frame with
  | none =>
      rcases session.close_cases with same | ⟨phase, _, nobody⟩
      · exact .inl (same ▸ verified)
      · rw [receive, nobody] at verified
        cases verified
  | some frame =>
      unfold receive at verified
      simp only at verified
      split at verified
      next phase reads =>
        rcases clientAuth_verified verified with before | proves
        · apply Or.inl
          rw [Session.verified, reads]
          exact before
        · exact .inr ⟨frame, rfl, proves⟩
      next phase reads =>
        rcases serverAuth_verified verified with before | proves
        · apply Or.inl
          rw [Session.verified, reads]
          exact before
        · exact .inr ⟨frame, rfl, proves⟩

theorem verified_of_result {peerId : Text} (returned : session.result = some (.ok peerId)) :
    session.verified = some peerId := by
  unfold result at returned
  unfold verified
  split at returned
  next reads =>
    rw [reads]
    cases returned
    rfl
  next reads =>
    rw [reads]
    cases returned
    rfl
  next => cases returned

end Session

end KairosEngine.Swarm
