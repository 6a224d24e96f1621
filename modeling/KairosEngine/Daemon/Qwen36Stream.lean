import Mathlib.Data.List.Induction
import KairosEngine.Library.Utf8

/-!
# The stream of a qwen36 turn

The callback of `v1_chat` holds back the bytes from the first ill-formed position on, and sends the
characters before it.
-/

namespace KairosEngine.Daemon

open KairosEngine.Library

/-- `pending`, and the texts of the deltas that were sent. -/
structure ChatStream where
  pending : List UInt8
  sent : List (List Char)

section Stream

variable (decodeToken : Int → List UInt8)

/-- The callback, for a client that is connected and has not cancelled. -/
def onChatToken (stream : ChatStream) (id : Int) : ChatStream :=
  let pending := stream.pending ++ decodeToken id
  let (text, keep) :=
    match fromUtf8 pending with
    | some s => (s, 0)
    | none =>
        let ok := validUpTo pending
        (fromUtf8Lossy (pending.take ok), pending.length - ok)
  { pending := pending.drop (pending.length - keep)
    sent := if text.isEmpty then stream.sent else stream.sent ++ [text] }

/-- The stream of the generated ids, up to `[DONE]`. -/
def chatStream (ids : List Int) : ChatStream := ids.foldl (onChatToken decodeToken) ⟨[], []⟩

/-! ## What is sent and what is held -/

theorem onChatToken_eq (stream : ChatStream) (id : Int) :
    let pending := stream.pending ++ decodeToken id
    (onChatToken decodeToken stream id).pending = pending.drop (validUpTo pending) ∧
      (onChatToken decodeToken stream id).sent.flatten =
        stream.sent.flatten ++ validText pending := by
  intro pending
  have chosen : (match fromUtf8 pending with
      | some s => (s, 0)
      | none => (fromUtf8Lossy (pending.take (validUpTo pending)),
          pending.length - validUpTo pending)) =
      (validText pending, pending.length - validUpTo pending) := by
    cases decoded : fromUtf8 pending with
    | some text =>
        obtain ⟨same, none⟩ := fromUtf8_eq_some_validText_iff.mp decoded
        rw [same, Nat.sub_eq_zero_of_le (List.drop_eq_nil_iff.mp none)]
    | none =>
        dsimp only
        rw [take_validUpTo, fromUtf8Lossy_utf8]
  have kept : pending.length - (pending.length - validUpTo pending) = validUpTo pending :=
    Nat.sub_sub_self (validUpTo_le pending)
  unfold onChatToken
  dsimp only
  rw [chosen]
  refine ⟨by rw [kept], ?_⟩
  dsimp only
  cases empty : validText pending with
  | nil =>
      rw [List.isEmpty_nil, if_pos rfl, List.append_nil]
  | cons c text =>
      rw [List.isEmpty_cons, if_neg Bool.false_ne_true, List.flatten_append, List.flatten_singleton]

/-- After any ids the text so far is the part of their bytes before the first ill-formed position,
and the bytes from there on are held. -/
theorem chatStream_eq (ids : List Int) :
    (chatStream decodeToken ids).sent.flatten = validText (ids.flatMap decodeToken) ∧
      (chatStream decodeToken ids).pending =
        (ids.flatMap decodeToken).drop (validUpTo (ids.flatMap decodeToken)) := by
  induction ids using List.reverseRecOn with
  | nil => exact ⟨rfl, rfl⟩
  | append_singleton ids id inductionHypothesis =>
      obtain ⟨sent, pending⟩ := inductionHypothesis
      obtain ⟨heldNext, sentNext⟩ := onChatToken_eq decodeToken (chatStream decodeToken ids) id
      obtain ⟨text, rest⟩ := validText_resume (ids.flatMap decodeToken) (decodeToken id)
      have folded : chatStream decodeToken (ids ++ [id]) =
          onChatToken decodeToken (chatStream decodeToken ids) id := by
        rw [chatStream, List.foldl_append]
        rfl
      rw [folded, List.flatMap_append, List.flatMap_singleton, text, rest, heldNext, sentNext, sent,
        pending]
      exact ⟨rfl, rfl⟩

/-- The beginning of a character that is not all there. -/
def IncompleteChar (bytes : List UInt8) : Prop :=
  ∃ (c : Char) (more : List UInt8), more ≠ [] ∧ bytes ++ more = String.utf8EncodeChar c

/-- The whole answer is delivered: the deltas are its lossy decoding, and after each token only an
incomplete character is left to send. -/
def Delivers (ids : List Int) : Prop :=
  (chatStream decodeToken ids).sent.flatten = fromUtf8Lossy (ids.flatMap decodeToken) ∧
    ∀ count ≤ ids.length, ∃ unsent,
      (ids.take count).flatMap decodeToken =
          utf8 (chatStream decodeToken (ids.take count)).sent.flatten ++ unsent ∧
        IncompleteChar unsent

end Stream

/-- What is held of bytes that a text continues is an incomplete character. -/
theorem incompleteChar_of_continues {bytes more : List UInt8} {text : List Char}
    (continues : bytes ++ more = utf8 text) : IncompleteChar (bytes.drop (validUpTo bytes)) := by
  obtain ⟨split, stuck⟩ := validText_split bytes
  generalize bytes.drop (validUpTo bytes) = rest at split stuck ⊢
  have decoded : decodeFrom 0 (bytes ++ more) = text.map some := by
    rw [continues, decodeFrom_utf8]
  rw [split, List.append_assoc, decodeFrom_utf8_append] at decoded
  obtain ⟨first, behind, rfl, _, later⟩ := List.map_eq_append_iff.mp decoded.symm
  have tail := decodeFrom_eq_map_some.mp later.symm
  cases rest with
  | nil => exact ⟨'a', String.utf8EncodeChar 'a', by decide, List.nil_append _⟩
  | cons byte rest =>
      cases behind with
      | nil => cases tail
      | cons c behind =>
          have unread (extra : List UInt8) : byte :: rest ≠ String.utf8EncodeChar c ++ extra := by
            intro begins
            have none := utf8Head_of_validText_nil stuck
            rw [begins, utf8Head_encoded] at none
            cases none
          rw [utf8_cons] at tail
          rcases List.append_eq_append_iff.mp tail with ⟨missing, whole, _⟩ | ⟨extra, begins, _⟩
          · refine ⟨c, missing, ?_, whole.symm⟩
            rintro rfl
            rw [List.append_nil] at whole
            exact unread [] (whole.symm.trans (List.append_nil _).symm)
          · exact absurd begins (unread extra)

/-- The stream delivers the answer exactly when the bytes of all its tokens are a text. -/
theorem chatStream_delivers_iff (decodeToken : Int → List UInt8) (ids : List Int) :
    Delivers decodeToken ids ↔ ∃ text, fromUtf8 (ids.flatMap decodeToken) = some text := by
  rw [← validText_eq_lossy_iff, Delivers, (chatStream_eq decodeToken ids).1]
  constructor
  · rintro ⟨same, _⟩
    exact same
  · intro same
    refine ⟨same, fun count _ => ?_⟩
    obtain ⟨text, whole⟩ := validText_eq_lossy_iff.mp same
    rw [fromUtf8_eq_some_iff] at whole
    have continues : (ids.take count).flatMap decodeToken ++ (ids.drop count).flatMap decodeToken =
        utf8 text := by
      rw [← List.flatMap_append, List.take_append_drop]
      exact whole
    refine ⟨_, ?_, incompleteChar_of_continues continues⟩
    rw [(chatStream_eq decodeToken (ids.take count)).1]
    exact (validText_split _).1

/-- Behind a byte that no text has, nothing is sent any more. -/
theorem chatStream_stuck : ¬ Delivers (fun id => [UInt8.ofNat id.toNat]) [255, 97] := by
  rintro ⟨same, _⟩
  exact absurd same (by decide +kernel)

end KairosEngine.Daemon
