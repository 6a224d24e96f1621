import KairosEngine.Daemon.DecodeBuffer

/-!
# When the decode buffer stalls

The buffer gives out the well-formed text in front of the stop window.  A byte that belongs to no
character is never given out, nor is anything behind it.
-/

namespace KairosEngine.Daemon

open KairosEngine.Library

/-! ## What `valid_utf8_up_to` finds -/

/-- A continuation byte. -/
def Continues (byte : UInt8) : Prop := 0x80 ≤ byte.toNat ∧ byte.toNat ≤ 0xBF

/-- The byte sequences of one character. -/
inductive Utf8Sequence : ByteString → Prop
  | one {lead : UInt8} (ascii : lead.toNat < 0x80) : Utf8Sequence [lead]
  | two {lead second : UInt8} (range : 0xC2 ≤ lead.toNat ∧ lead.toNat ≤ 0xDF)
      (last : Continues second) : Utf8Sequence [lead, second]
  | three {lead second third : UInt8} (range : 0xE0 ≤ lead.toNat ∧ lead.toNat ≤ 0xEF)
      (first : Continues second) (low : lead.toNat = 0xE0 → 0xA0 ≤ second.toNat)
      (high : lead.toNat = 0xED → second.toNat ≤ 0x9F) (last : Continues third) :
      Utf8Sequence [lead, second, third]
  | four {lead second third fourth : UInt8} (range : 0xF0 ≤ lead.toNat ∧ lead.toNat ≤ 0xF4)
      (first : Continues second) (low : lead.toNat = 0xF0 → 0x90 ≤ second.toNat)
      (high : lead.toNat = 0xF4 → second.toNat ≤ 0x8F) (middle : Continues third)
      (last : Continues fourth) : Utf8Sequence [lead, second, third, fourth]

theorem tailIn_eq_true {low high : UInt8} {bytes : ByteString} {index : Nat} :
    tailIn low high bytes index = true ↔
      ∃ byte ∈ bytes[index]?, low.toNat ≤ byte.toNat ∧ byte.toNat ≤ high.toNat := by
  unfold tailIn
  cases bytes[index]? <;> simp [UInt8.le_iff_toNat_le]

/-- The second byte has a narrower range behind two of the lead bytes. -/
theorem narrowed_iff {least most low high lead second : UInt8} (above : 0x80 ≤ low.toNat)
    (below : high.toNat ≤ 0xBF) :
    ((if lead = least then low else 0x80).toNat ≤ second.toNat ∧
        second.toNat ≤ (if lead = most then high else 0xBF).toNat) ↔
      Continues second ∧ (lead.toNat = least.toNat → low.toNat ≤ second.toNat) ∧
        (lead.toNat = most.toNat → second.toNat ≤ high.toNat) := by
  have small : (0x80 : UInt8).toNat = 0x80 := rfl
  have large : (0xBF : UInt8).toNat = 0xBF := rfl
  simp only [Continues, apply_ite UInt8.toNat, ← UInt8.toNat_inj, small, large]
  split <;> split <;> omega

section Leads

variable {lead : UInt8} {rest : ByteString}

theorem utf8Width_ascii (ascii : lead.toNat < 0x80) : utf8Width (lead :: rest) = some 1 := by
  simp only [utf8Width, List.head?_cons, UInt8.lt_iff_toNat_lt, UInt8.reduceToNat, if_pos ascii]

theorem utf8Width_two (range : 0xC2 ≤ lead.toNat ∧ lead.toNat ≤ 0xDF) :
    utf8Width (lead :: rest) = if tailIn 0x80 0xBF (lead :: rest) 1 then some 2 else none := by
  simp only [utf8Width, List.head?_cons, UInt8.lt_iff_toNat_lt, UInt8.le_iff_toNat_le,
    UInt8.reduceToNat]
  rw [if_neg (by omega), if_pos range]

theorem utf8Width_three (range : 0xE0 ≤ lead.toNat ∧ lead.toNat ≤ 0xEF) :
    utf8Width (lead :: rest) =
      if tailIn (if lead = 0xE0 then 0xA0 else 0x80) (if lead = 0xED then 0x9F else 0xBF)
          (lead :: rest) 1 && tailIn 0x80 0xBF (lead :: rest) 2 then some 3 else none := by
  simp only [utf8Width, List.head?_cons, UInt8.lt_iff_toNat_lt, UInt8.le_iff_toNat_le,
    UInt8.reduceToNat]
  rw [if_neg (by omega), if_neg (by omega), if_pos range]

theorem utf8Width_four (range : 0xF0 ≤ lead.toNat ∧ lead.toNat ≤ 0xF4) :
    utf8Width (lead :: rest) =
      if tailIn (if lead = 0xF0 then 0x90 else 0x80) (if lead = 0xF4 then 0x8F else 0xBF)
          (lead :: rest) 1 && tailIn 0x80 0xBF (lead :: rest) 2 &&
            tailIn 0x80 0xBF (lead :: rest) 3 then some 4 else none := by
  simp only [utf8Width, List.head?_cons, UInt8.lt_iff_toNat_lt, UInt8.le_iff_toNat_le,
    UInt8.reduceToNat]
  rw [if_neg (by omega), if_neg (by omega), if_neg (by omega), if_pos range]

theorem utf8Width_leads {width : Nat} (read : utf8Width (lead :: rest) = some width) :
    lead.toNat < 0x80 ∨ (0xC2 ≤ lead.toNat ∧ lead.toNat ≤ 0xDF) ∨
      (0xE0 ≤ lead.toNat ∧ lead.toNat ≤ 0xEF) ∨ (0xF0 ≤ lead.toNat ∧ lead.toNat ≤ 0xF4) := by
  by_contra outside
  simp only [utf8Width, List.head?_cons, UInt8.lt_iff_toNat_lt, UInt8.le_iff_toNat_le,
    UInt8.reduceToNat] at read
  rw [if_neg (by omega), if_neg (by omega), if_neg (by omega), if_neg (by omega)] at read
  cases read

end Leads

theorem utf8Width_sequence {sequence : ByteString} (formed : Utf8Sequence sequence)
    (rest : ByteString) : utf8Width (sequence ++ rest) = some sequence.length := by
  cases formed with
  | one ascii => exact utf8Width_ascii ascii
  | two range last =>
      refine (utf8Width_two range).trans (if_pos ?_)
      exact tailIn_eq_true.mpr ⟨_, rfl, last⟩
  | three range first low high last =>
      refine (utf8Width_three range).trans (if_pos ?_)
      rw [Bool.and_eq_true]
      exact ⟨tailIn_eq_true.mpr
          ⟨_, rfl, (narrowed_iff (by decide) (by decide)).mpr ⟨first, low, high⟩⟩,
        tailIn_eq_true.mpr ⟨_, rfl, last⟩⟩
  | four range first low high middle last =>
      refine (utf8Width_four range).trans (if_pos ?_)
      rw [Bool.and_eq_true, Bool.and_eq_true]
      exact ⟨⟨tailIn_eq_true.mpr
          ⟨_, rfl, (narrowed_iff (by decide) (by decide)).mpr ⟨first, low, high⟩⟩,
        tailIn_eq_true.mpr ⟨_, rfl, middle⟩⟩, tailIn_eq_true.mpr ⟨_, rfl, last⟩⟩

theorem utf8Width_eq_some {bytes : ByteString} {width : Nat} (read : utf8Width bytes = some width) :
    ∃ sequence rest, bytes = sequence ++ rest ∧ Utf8Sequence sequence ∧ sequence.length = width := by
  cases bytes with
  | nil => cases read
  | cons lead rest =>
      rcases utf8Width_leads read with ascii | range | range | range
      · rw [utf8Width_ascii ascii, Option.some.injEq] at read
        exact ⟨[lead], rest, rfl, .one ascii, read⟩
      · rw [utf8Width_two range, Option.ite_none_right_eq_some, Option.some.injEq,
          tailIn_eq_true] at read
        obtain ⟨⟨second, there, last⟩, width⟩ := read
        match rest, there with
        | _ :: after, rfl => exact ⟨[lead, second], after, rfl, .two range last, width⟩
      · rw [utf8Width_three range, Option.ite_none_right_eq_some, Option.some.injEq,
          Bool.and_eq_true, tailIn_eq_true, tailIn_eq_true] at read
        obtain ⟨⟨⟨second, there, narrowed⟩, third, behind, last⟩, width⟩ := read
        obtain ⟨first, low, high⟩ := (narrowed_iff (by decide) (by decide)).mp narrowed
        match rest, there, behind with
        | _ :: _ :: after, rfl, rfl =>
            exact ⟨[lead, second, third], after, rfl, .three range first low high last, width⟩
      · rw [utf8Width_four range, Option.ite_none_right_eq_some, Option.some.injEq,
          Bool.and_eq_true, Bool.and_eq_true, tailIn_eq_true, tailIn_eq_true,
          tailIn_eq_true] at read
        obtain ⟨⟨⟨⟨second, there, narrowed⟩, third, behind, middle⟩, fourth, final, last⟩, width⟩ :=
          read
        obtain ⟨first, low, high⟩ := (narrowed_iff (by decide) (by decide)).mp narrowed
        match rest, there, behind, final with
        | _ :: _ :: _ :: after, rfl, rfl, rfl =>
            exact ⟨[lead, second, third, fourth], after, rfl,
              .four range first low high middle last, width⟩

theorem utf8Sequence_encoded (c : Char) : Utf8Sequence (String.utf8EncodeChar c) := by
  have valid : c.val.toNat < 0xD800 ∨ 0xDFFF < c.val.toNat ∧ c.val.toNat < 0x110000 := c.valid
  unfold String.utf8EncodeChar
  simp only
  split
  next small =>
    apply Utf8Sequence.one
    rw [UInt8.toNat_ofNat']
    omega
  next =>
    split
    next =>
      apply Utf8Sequence.two <;> simp only [Continues, UInt8.toNat_ofNat'] <;> omega
    next =>
      split
      next =>
        apply Utf8Sequence.three <;> simp only [Continues, UInt8.toNat_ofNat'] <;> omega
      next =>
        apply Utf8Sequence.four <;> simp only [Continues, UInt8.toNat_ofNat'] <;> omega

theorem Utf8Sequence.encoded {sequence : ByteString} (formed : Utf8Sequence sequence) :
    ∃ c, sequence = String.utf8EncodeChar c := by
  have named : ∀ code : Nat, code.isValidChar → ∃ c : Char, c.val.toNat = code := by
    intro code valid
    exact ⟨Char.ofNatAux code valid, rfl⟩
  cases formed with
  | @one lead ascii =>
      obtain ⟨c, code⟩ := named lead.toNat (Or.inl (by omega))
      refine ⟨c, ?_⟩
      simp only [String.utf8EncodeChar, code]
      rw [if_pos (by omega), UInt8.ofNat_toNat]
  | @two lead second range last =>
      unfold Continues at last
      obtain ⟨c, code⟩ := named ((lead.toNat - 0xC0) * 64 + (second.toNat - 0x80))
        (Or.inl (by omega))
      refine ⟨c, ?_⟩
      simp only [String.utf8EncodeChar, code]
      rw [if_neg (by omega), if_pos (by omega)]
      simp only [List.cons.injEq, ← UInt8.toNat_inj, UInt8.toNat_ofNat', and_true]
      omega
  | @three lead second third range first low high last =>
      unfold Continues at first last
      obtain ⟨c, code⟩ := named ((lead.toNat - 0xE0) * 4096 + (second.toNat - 0x80) * 64 +
        (third.toNat - 0x80)) (by unfold Nat.isValidChar; omega)
      refine ⟨c, ?_⟩
      simp only [String.utf8EncodeChar, code]
      rw [if_neg (by omega), if_neg (by omega), if_pos (by omega)]
      simp only [List.cons.injEq, ← UInt8.toNat_inj, UInt8.toNat_ofNat', and_true]
      omega
  | @four lead second third fourth range first low high middle last =>
      unfold Continues at first middle last
      obtain ⟨c, code⟩ := named ((lead.toNat - 0xF0) * 262144 + (second.toNat - 0x80) * 4096 +
        (third.toNat - 0x80) * 64 + (fourth.toNat - 0x80)) (by unfold Nat.isValidChar; omega)
      refine ⟨c, ?_⟩
      simp only [String.utf8EncodeChar, code]
      rw [if_neg (by omega), if_neg (by omega), if_neg (by omega)]
      simp only [List.cons.injEq, ← UInt8.toNat_inj, UInt8.toNat_ofNat', and_true]
      omega

theorem utf8Width_encoded (c : Char) (rest : ByteString) :
    utf8Width (String.utf8EncodeChar c ++ rest) = some (String.utf8EncodeChar c).length :=
  utf8Width_sequence (utf8Sequence_encoded c) rest

theorem utf8Width_decoded {bytes : ByteString} {width : Nat} (read : utf8Width bytes = some width) :
    ∃ c rest, bytes = String.utf8EncodeChar c ++ rest := by
  obtain ⟨sequence, rest, split, formed, -⟩ := utf8Width_eq_some read
  obtain ⟨c, rfl⟩ := formed.encoded
  exact ⟨c, rest, split⟩

theorem validFrom_skip (skipped rest : ByteString) :
    validFrom skipped.length (skipped ++ rest) = skipped.length + validFrom 0 rest := by
  induction skipped with
  | nil => exact (Nat.zero_add _).symm
  | cons byte skipped inductionHypothesis =>
      rw [List.length_cons, List.cons_append, validFrom, inductionHypothesis]
      omega

theorem validUtf8UpTo_encoded (c : Char) (rest : ByteString) :
    validUtf8UpTo (String.utf8EncodeChar c ++ rest) =
      (String.utf8EncodeChar c).length + validUtf8UpTo rest := by
  have read := utf8Width_encoded c rest
  have positive := String.length_utf8EncodeChar c
  cases encoded : String.utf8EncodeChar c with
  | nil =>
      rw [encoded, List.length_nil] at positive
      exact absurd positive.symm (Nat.ne_of_gt c.utf8Size_pos)
  | cons lead skipped =>
      rw [encoded, List.cons_append] at read
      simp only [validUtf8UpTo, List.cons_append, validFrom, read, List.length_cons,
        Nat.add_sub_cancel, validFrom_skip]
      omega

theorem validUtf8UpTo_utf8 (text : List Char) (rest : ByteString) :
    validUtf8UpTo (utf8 text ++ rest) = (utf8 text).length + validUtf8UpTo rest := by
  induction text with
  | nil => exact (Nat.zero_add _).symm
  | cons c text inductionHypothesis =>
      rw [utf8_cons, List.append_assoc, validUtf8UpTo_encoded, inductionHypothesis,
        List.length_append, Nat.add_assoc]

theorem le_validUtf8UpTo {text : List Char} {bytes : ByteString} (front : utf8 text <+: bytes) :
    (utf8 text).length ≤ validUtf8UpTo bytes := by
  obtain ⟨rest, rfl⟩ := front
  rw [validUtf8UpTo_utf8]
  exact Nat.le_add_right _ _

/-- The valid front is the longest text that the bytes begin with. -/
theorem take_validUtf8UpTo (bytes : ByteString) :
    ∃ text, bytes.take (validUtf8UpTo bytes) = utf8 text := by
  induction length : bytes.length using Nat.strongRecOn generalizing bytes with
  | ind size inductionHypothesis =>
      cases read : utf8Width bytes with
      | none =>
          have nothing : validUtf8UpTo bytes = 0 := by
            cases bytes with
            | nil => rfl
            | cons byte rest => simp only [validUtf8UpTo, validFrom, read]
          exact ⟨[], by rw [nothing]; rfl⟩
      | some width =>
          obtain ⟨c, rest, rfl⟩ := utf8Width_decoded read
          have positive := String.length_utf8EncodeChar c
          have shorter : rest.length < size := by
            rw [← length, List.length_append, positive]
            exact Nat.lt_add_of_pos_left c.utf8Size_pos
          obtain ⟨text, front⟩ := inductionHypothesis rest.length shorter rest rfl
          refine ⟨c :: text, ?_⟩
          rw [validUtf8UpTo_encoded, List.take_length_add_append, front, utf8_cons]

namespace TokenDecodeBuffer

/-! ## The bytes since the last stop -/

def pushAll (buffer : TokenDecodeBuffer) (chunks : List ByteString) : TokenDecodeBuffer :=
  chunks.foldl (fun buffer chunk => (buffer.push chunk).1) buffer

/-- What has been pushed since a push last stopped. -/
def since (buffer : TokenDecodeBuffer) (seen : ByteString) : List ByteString → ByteString
  | [] => seen
  | chunk :: rest =>
      match buffer.push chunk with
      | (after, .stopped _) => after.since [] rest
      | (after, .emit _) => after.since (seen ++ chunk) rest

/-- The stream begins with a text that ends in front of the stop window, and not more than three
bytes in front of it. -/
def ReachesWindow (hold : Nat) (stream : ByteString) : Prop :=
  ∃ text, utf8 text <+: stream ∧ (utf8 text).length ≤ stream.length - hold ∧
    stream.length ≤ (utf8 text).length + hold + 3

/-- How much of a stream has been given out. -/
def settled (hold : Nat) (stream : ByteString) : Nat :=
  validUtf8UpTo (stream.take (stream.length - hold))

theorem settled_le (hold : Nat) (stream : ByteString) :
    settled hold stream ≤ stream.length - hold := by
  refine Nat.le_trans (validFrom_le 0 _) ?_
  rw [List.length_take]
  exact Nat.min_le_left _ _

theorem settled_text (hold : Nat) (stream : ByteString) :
    ∃ text, stream.take (settled hold stream) = utf8 text := by
  obtain ⟨text, front⟩ : ∃ text,
      (stream.take (stream.length - hold)).take (settled hold stream) = utf8 text :=
    take_validUtf8UpTo _
  rw [List.take_take, Nat.min_eq_left (settled_le hold stream)] at front
  exact ⟨text, front⟩

/-- What has been given out is the longest text in front of the window. -/
theorem le_settled {hold : Nat} {stream : ByteString} {text : List Char}
    (front : utf8 text <+: stream) (inside : (utf8 text).length ≤ stream.length - hold) :
    (utf8 text).length ≤ settled hold stream := by
  apply le_validUtf8UpTo
  rw [List.prefix_take_iff]
  exact ⟨front, inside⟩

theorem reachesWindow_iff (hold : Nat) (stream : ByteString) :
    ReachesWindow hold stream ↔ stream.length - settled hold stream ≤ hold + 3 := by
  constructor
  · rintro ⟨text, front, inside, near⟩
    have given := le_settled front inside
    omega
  · intro near
    obtain ⟨text, front⟩ := settled_text hold stream
    have within := settled_le hold stream
    have length : (utf8 text).length = settled hold stream := by
      rw [← front, List.length_take]
      omega
    refine ⟨text, ?_, ?_, ?_⟩
    · rw [← front]
      exact List.take_prefix _ _
    · rw [length]
      exact within
    · rw [length]
      omega

/-! ## What the buffer holds -/

/-- The buffer holds what is not given out of the stream. -/
def Follows (buffer : TokenDecodeBuffer) (stream : ByteString) : Prop :=
  buffer.buf = stream.drop (settled buffer.hold stream)

variable {buffer : TokenDecodeBuffer} {stream chunk bytes : ByteString} {stops : List ByteString}

/-- Nothing is lost between what a push gives out and what it holds. -/
theorem push_emit_append (emits : (buffer.push chunk).2 = .emit bytes) :
    bytes ++ (buffer.push chunk).1.buf = buffer.buf ++ chunk := by
  revert emits
  simp only [push]
  split
  next => rintro ⟨⟩
  next =>
    split
    next =>
      rintro ⟨⟩
      rfl
    next =>
      split
      next =>
        rintro ⟨⟩
        rfl
      next =>
        rintro ⟨⟩
        exact List.take_append_drop _ _

theorem push_hold (buffer : TokenDecodeBuffer) (chunk : ByteString) :
    (buffer.push chunk).1.hold = buffer.hold := by
  simp only [push]
  split
  next => rfl
  next =>
    split
    next => rfl
    next => split <;> rfl

/-- What is settled stays so when the stream goes on. -/
theorem settled_append (hold : Nat) (stream chunk : ByteString) :
    settled hold (stream ++ chunk) =
      settled hold stream +
        validUtf8UpTo (((stream ++ chunk).take ((stream ++ chunk).length - hold)).drop
          (settled hold stream)) := by
  obtain ⟨text, front⟩ := settled_text hold stream
  have within := settled_le hold stream
  have longer : (stream ++ chunk).length = stream.length + chunk.length := List.length_append
  have length : (utf8 text).length = settled hold stream := by
    rw [← front, List.length_take]
    omega
  have grows : utf8 text <+: (stream ++ chunk).take ((stream ++ chunk).length - hold) := by
    rw [List.prefix_take_iff]
    refine ⟨?_, by omega⟩
    rw [← front]
    exact (List.take_prefix _ _).trans (List.prefix_append _ _)
  obtain ⟨rest, split⟩ := grows
  rw [← length, ← split, List.drop_left, ← validUtf8UpTo_utf8, split, settled]

theorem Follows.emit (follows : buffer.Follows stream)
    (emits : (buffer.push chunk).2 = .emit bytes) :
    (buffer.push chunk).1.Follows (stream ++ chunk) := by
  have within := settled_le buffer.hold stream
  have longer : (stream ++ chunk).length = stream.length + chunk.length := List.length_append
  have held : buffer.buf ++ chunk = (stream ++ chunk).drop (settled buffer.hold stream) := by
    rw [follows, List.drop_append_of_le_length (by omega)]
  have size : (buffer.buf ++ chunk).length =
      (stream ++ chunk).length - settled buffer.hold stream := by
    rw [held, List.length_drop]
  have window : ((stream ++ chunk).take ((stream ++ chunk).length - buffer.hold)).drop
      (settled buffer.hold stream) =
        (buffer.buf ++ chunk).take ((buffer.buf ++ chunk).length - buffer.hold) := by
    rw [List.drop_take, held, List.length_drop, Nat.sub_right_comm]
  have more := settled_append buffer.hold stream chunk
  rw [window] at more
  revert emits
  simp only [push]
  split
  next => rintro ⟨⟩
  next =>
    split
    next short =>
      rintro ⟨⟩
      have nothing : (buffer.buf ++ chunk).length - buffer.hold = 0 := Nat.sub_eq_zero_of_le short
      rw [nothing, List.take_zero] at more
      rw [Follows, more]
      exact held
    next =>
      split
      next nothing =>
        rintro ⟨⟩
        rw [Follows, more, nothing]
        exact held
      next =>
        rintro ⟨⟩
        rw [Follows, more, ← List.drop_drop, ← held]

theorem Follows.stopped (stops : (buffer.push chunk).2 = .stopped bytes) :
    (buffer.push chunk).1.Follows [] := by
  revert stops
  simp only [push]
  split
  next =>
    intro _
    exact List.drop_nil.symm
  next =>
    split
    next => rintro ⟨⟩
    next =>
      split
      next => rintro ⟨⟩
      next => rintro ⟨⟩

theorem Follows.pushAll (follows : buffer.Follows stream) (chunks : List ByteString) :
    (buffer.pushAll chunks).Follows (buffer.since stream chunks) := by
  induction chunks generalizing buffer stream with
  | nil => exact follows
  | cons chunk rest inductionHypothesis =>
      rw [TokenDecodeBuffer.pushAll, List.foldl_cons, ← TokenDecodeBuffer.pushAll, since]
      cases pushed : buffer.push chunk with
      | mk after result =>
          have here := congrArg Prod.fst pushed
          have given := congrArg Prod.snd pushed
          cases result with
          | stopped bytes => exact inductionHypothesis (here ▸ Follows.stopped given)
          | emit bytes => exact inductionHypothesis (here ▸ follows.emit given)

theorem pushAll_hold (buffer : TokenDecodeBuffer) (chunks : List ByteString) :
    (buffer.pushAll chunks).hold = buffer.hold := by
  induction chunks generalizing buffer with
  | nil => rfl
  | cons chunk rest inductionHypothesis =>
      exact (inductionHypothesis (buffer.push chunk).1).trans (push_hold buffer chunk)

theorem follows_new (stops : List ByteString) : (new stops).Follows [] := List.drop_nil.symm

/-- After a push that gives something out, at most three bytes more than the stop window are held
exactly when everything pushed since the last stop is text up to there. -/
theorem push_held_le_iff (stops chunks : List ByteString) (chunk bytes : ByteString)
    (emits : (((new stops).pushAll chunks).push chunk).2 = .emit bytes) :
    (((new stops).pushAll chunks).push chunk).1.buf.length ≤ (new stops).hold + 3 ↔
      ReachesWindow (new stops).hold ((new stops).since [] chunks ++ chunk) := by
  have follows := ((follows_new stops).pushAll chunks).emit emits
  rw [Follows, push_hold, pushAll_hold] at follows
  rw [reachesWindow_iff, follows, List.length_drop]

/-- A character that comes in two parts is held until it is complete. -/
theorem push_held_le_split :
    (((new [[97, 98]]).pushAll [[120, 0xC3]]).push [0xA9]).1.buf.length ≤ (new [[97, 98]]).hold + 3 ↔
      ReachesWindow (new [[97, 98]]).hold ((new [[97, 98]]).since [] [[120, 0xC3]] ++ [0xA9]) :=
  push_held_le_iff [[97, 98]] [[120, 0xC3]] [0xA9] [] (by rfl)

/-- A continuation byte on its own blocks everything behind it. -/
theorem push_stalls :
    (((new []).pushAll [[0x80], [104], [101], [108]]).push [108]).2 = .emit [] ∧
      ¬ (((new []).pushAll [[0x80], [104], [101], [108]]).push [108]).1.buf.length ≤
        (new []).hold + 3 :=
  ⟨rfl, by decide⟩

end TokenDecodeBuffer

end KairosEngine.Daemon
