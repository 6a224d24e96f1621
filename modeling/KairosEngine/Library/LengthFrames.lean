import KairosEngine.Library.LittleEndian

/-!
# Frames behind their length

A frame is the length of its payload in four bytes, cut to their width, and the payload.
The reader refuses a length above its limit and waits for bytes that are missing.
-/

namespace KairosEngine.Library

def lengthFrame (payload : List UInt8) : List UInt8 := toLe 4 payload.length ++ payload

inductive TakenFrame
  | frame (payload rest : List UInt8)
  | refused
  | waiting
  deriving DecidableEq

def takeFrame (limit : Nat) (stream : List UInt8) : TakenFrame :=
  if stream.length < 4 then .waiting
  else
    let n := ofLe (stream.take 4)
    if limit < n then .refused
    else if stream.length < 4 + n then .waiting
    else .frame ((stream.drop 4).take n) (stream.drop (4 + n))

section

variable {limit : Nat} {payload rest : List UInt8}

theorem takeFrame_nil : takeFrame limit [] = .waiting := if_pos (by decide)

theorem ofLe_lengthFrame (fits : payload.length < 2 ^ 32) :
    ofLe ((lengthFrame payload ++ rest).take 4) = payload.length := by
  rw [lengthFrame, List.append_assoc, List.take_left' (length_toLe 4 payload.length)]
  apply ofLe_toLe
  omega

/-- A payload within the limit is read back, with what follows it. -/
theorem takeFrame_lengthFrame (fits : payload.length < 2 ^ 32) (small : payload.length ≤ limit) :
    takeFrame limit (lengthFrame payload ++ rest) = .frame payload rest := by
  have header : (lengthFrame payload ++ rest).drop 4 = payload ++ rest := by
    rw [lengthFrame, List.append_assoc, List.drop_left' (length_toLe 4 payload.length)]
  have length : (lengthFrame payload ++ rest).length = 4 + payload.length + rest.length := by
    simp only [lengthFrame, List.length_append, length_toLe]
  unfold takeFrame
  rw [ofLe_lengthFrame fits, length, if_neg (by omega)]
  simp only
  rw [if_neg (by omega), if_neg (by omega), ← List.drop_drop, header, List.take_left,
    List.drop_left]

theorem takeFrame_refused (fits : payload.length < 2 ^ 32) (large : limit < payload.length) :
    takeFrame limit (lengthFrame payload ++ rest) = .refused := by
  have length : (lengthFrame payload ++ rest).length = 4 + payload.length + rest.length := by
    simp only [lengthFrame, List.length_append, length_toLe]
  unfold takeFrame
  rw [ofLe_lengthFrame fits, length, if_neg (by omega)]
  simp only
  rw [if_pos large]

end

end KairosEngine.Library
