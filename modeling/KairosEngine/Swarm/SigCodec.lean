import KairosEngine.Library.BitPacking
import KairosEngine.Swarm.Store
import Mathlib.Data.UInt

/-!
# The two hexadecimal forms of a signature

The swarm writes the bytes of the words in memory order, the lowest byte of the first word first;
the daemon reads one number of 256 bits, the highest digit first.  Each is the other with the bytes
turned round.
-/

namespace KairosEngine.Swarm

open KairosEngine.Library KairosEngine.Daemon

namespace Sig

/-- The 32 bytes of the words in memory order. -/
def bytes (sig : Sig) : Bytes := sig.words.flatMap wordToLe

theorem length_readWords (bytes : Bytes) : ((List.range 4).map fun index =>
    wordFromLe ((bytes.drop (8 * index)).take 8)).length = 4 := by
  rw [List.length_map, List.length_range]

def ofBytes (bytes : Bytes) : Sig where
  words := (List.range 4).map fun index => wordFromLe ((bytes.drop (8 * index)).take 8)
  size := length_readWords bytes

/-- Four words from their 256 bits, the lowest bit of the first word first. -/
def ofBits (bits : List Bool) : Sig where
  words := (List.range 4).map fun word =>
    UInt64.ofNat (packBits ((bits.drop (64 * word)).take 64))
  size := by rw [List.length_map, List.length_range]

/-- The signature with its bytes turned round. -/
def reversed (sig : Sig) : Sig := ofBytes sig.bytes.reverse

end Sig

/-- The words that `recall::parse_sig_hex` returns. -/
def recallSig (hex : Text) : Option Sig := (parseSigHex hex).map Sig.ofBits

/-! ## Words and bytes -/

theorem wordFromLe_eq (bytes : Bytes) : wordFromLe bytes = UInt64.ofNat (ofLe bytes) := by
  rw [wordFromLe]
  congr 1
  induction bytes with
  | nil => rfl
  | cons byte rest inductionHypothesis => rw [List.foldr_cons, inductionHypothesis, ofLe]

theorem wordToLe_eq (word : UInt64) : wordToLe word = toLe 8 word.toNat :=
  (toLe_eq_map 8 word.toNat).symm

@[simp]
theorem length_wordToLe (word : UInt64) : (wordToLe word).length = 8 := by
  rw [wordToLe_eq, length_toLe]

theorem wordFromLe_toNat {bytes : Bytes} (size : bytes.length = 8) :
    (wordFromLe bytes).toNat = ofLe bytes := by
  have small := ofLe_lt bytes
  rw [size] at small
  rw [wordFromLe_eq]
  exact UInt64.toNat_ofNat_of_lt' small

@[simp]
theorem wordFromLe_wordToLe (word : UInt64) : wordFromLe (wordToLe word) = word := by
  have small : word.toNat < 256 ^ 8 := word.toNat_lt
  rw [wordFromLe_eq, wordToLe_eq, ofLe_toLe small, UInt64.ofNat_toNat]

theorem wordToLe_wordFromLe {bytes : Bytes} (size : bytes.length = 8) :
    wordToLe (wordFromLe bytes) = bytes := by
  rw [wordToLe_eq, wordFromLe_toNat size, ← size, toLe_ofLe]

/-- Four parts of one length are cut out of the whole again. -/
theorem quarters {Item : Type} {first second third fourth : List Item} {width : Nat}
    (sizeFirst : first.length = width) (sizeSecond : second.length = width)
    (sizeThird : third.length = width) (sizeFourth : fourth.length = width) :
    ((List.range 4).map fun index =>
      ((first ++ (second ++ (third ++ fourth))).drop (width * index)).take width) =
      [first, second, third, fourth] := by
  have all : (List.range 4) = [0, 1, 2, 3] := rfl
  have one : (first ++ (second ++ (third ++ fourth))).drop width =
      second ++ (third ++ fourth) := List.drop_left' sizeFirst
  have two : (second ++ (third ++ fourth)).drop width = third ++ fourth :=
    List.drop_left' sizeSecond
  have three : (third ++ fourth).drop width = fourth := List.drop_left' sizeThird
  have steps : ∀ index, width * (index + 1) = width + width * index := fun index => by
    rw [Nat.mul_succ, Nat.add_comm]
  simp only [all, List.map_cons, List.map_nil, Nat.mul_zero, List.drop_zero, steps 0, steps 1,
    steps 2, ← List.drop_drop, one, two, three]
  rw [List.take_left' sizeFirst, List.take_left' sizeSecond, List.take_left' sizeThird,
    List.take_of_length_le (Nat.le_of_eq sizeFourth)]

namespace Sig

@[ext]
theorem ext {first second : Sig} (same : first.words = second.words) : first = second := by
  obtain ⟨words, size⟩ := first
  obtain ⟨others, sizes⟩ := second
  cases same
  rfl

theorem exists_words (sig : Sig) : ∃ first second third fourth,
    sig.words = [first, second, third, fourth] :=
  List.length_eq_four.mp sig.size

variable {first second third fourth : Bytes}

/-- Eight bytes for each word. -/
theorem ofBytes_words (sizeFirst : first.length = 8) (sizeSecond : second.length = 8)
    (sizeThird : third.length = 8) (sizeFourth : fourth.length = 8) :
    (ofBytes (first ++ (second ++ (third ++ fourth)))).words =
      [wordFromLe first, wordFromLe second, wordFromLe third, wordFromLe fourth] := by
  have parts := congrArg (List.map wordFromLe)
    (quarters sizeFirst sizeSecond sizeThird sizeFourth)
  rw [List.map_map] at parts
  exact parts

theorem exists_four {bytes : Bytes} (size : bytes.length = 32) : ∃ first second third fourth,
    bytes = first ++ (second ++ (third ++ fourth)) ∧ first.length = 8 ∧ second.length = 8 ∧
      third.length = 8 ∧ fourth.length = 8 := by
  refine ⟨bytes.take 8, (bytes.drop 8).take 8, ((bytes.drop 8).drop 8).take 8,
    ((bytes.drop 8).drop 8).drop 8, ?_, ?_, ?_, ?_, ?_⟩
  · rw [List.take_append_drop, List.take_append_drop, List.take_append_drop]
  all_goals simp [size]

theorem length_bytes (sig : Sig) : sig.bytes.length = 32 := by
  obtain ⟨first, second, third, fourth, words⟩ := sig.exists_words
  simp [bytes, words]

@[simp]
theorem ofBytes_bytes (sig : Sig) : ofBytes sig.bytes = sig := by
  obtain ⟨first, second, third, fourth, words⟩ := sig.exists_words
  have four : sig.bytes =
      wordToLe first ++ (wordToLe second ++ (wordToLe third ++ wordToLe fourth)) := by
    simp [bytes, words]
  apply Sig.ext
  rw [four, ofBytes_words (length_wordToLe _) (length_wordToLe _) (length_wordToLe _)
    (length_wordToLe _), words]
  simp only [wordFromLe_wordToLe]

theorem bytes_ofBytes {bytes : Bytes} (size : bytes.length = 32) : (ofBytes bytes).bytes = bytes := by
  obtain ⟨first, second, third, fourth, rfl, sizeFirst, sizeSecond, sizeThird, sizeFourth⟩ :=
    exists_four size
  rw [Sig.bytes, ofBytes_words sizeFirst sizeSecond sizeThird sizeFourth]
  simp [wordToLe_wordFromLe, sizeFirst, sizeSecond, sizeThird, sizeFourth]

theorem bits {part : Bytes} (size : part.length = 8) : (part.flatMap byteBits).length = 64 := by
  rw [length_bytes_bits, size]

/-- The bits of the bytes are the bits of the words. -/
theorem ofBits_bytes {bytes : Bytes} (size : bytes.length = 32) :
    ofBits (bytes.flatMap byteBits) = ofBytes bytes := by
  obtain ⟨first, second, third, fourth, rfl, sizeFirst, sizeSecond, sizeThird, sizeFourth⟩ :=
    exists_four size
  have parts := congrArg (List.map fun part => UInt64.ofNat (packBits part))
    (quarters (bits sizeFirst) (bits sizeSecond) (bits sizeThird) (bits sizeFourth))
  rw [List.map_map] at parts
  apply Sig.ext
  rw [ofBytes_words sizeFirst sizeSecond sizeThird sizeFourth, List.flatMap_append,
    List.flatMap_append, List.flatMap_append]
  simp only [wordFromLe_eq, ← packBits_bytes]
  exact parts

/-! ## The distance by bytes -/

theorem hamming_ofBytes {bytes others : Bytes} (size : bytes.length = 32)
    (sizeOthers : others.length = 32) :
    hamming (ofBytes bytes) (ofBytes others) =
      differing (bytes.flatMap byteBits) (others.flatMap byteBits) := by
  have word : ∀ {left right : Bytes}, left.length = 8 → right.length = 8 →
      countOnes (wordFromLe left ^^^ wordFromLe right) =
        differing (left.flatMap byteBits) (right.flatMap byteBits) := by
    intro left right sizeLeft sizeRight
    rw [countOnes, UInt64.toNat_xor, wordFromLe_toNat sizeLeft, wordFromLe_toNat sizeRight,
      ← packBits_bytes, ← packBits_bytes]
    exact countP_xor (bits sizeLeft) (bits sizeRight)
  obtain ⟨first, second, third, fourth, rfl, sizeFirst, sizeSecond, sizeThird, sizeFourth⟩ :=
    exists_four size
  obtain ⟨first', second', third', fourth', rfl, sizeFirst', sizeSecond', sizeThird',
    sizeFourth'⟩ := exists_four sizeOthers
  rw [hamming, ofBytes_words sizeFirst sizeSecond sizeThird sizeFourth,
    ofBytes_words sizeFirst' sizeSecond' sizeThird' sizeFourth']
  simp only [List.flatMap_append]
  rw [differing_append ((bits sizeFirst).trans (bits sizeFirst').symm),
    differing_append ((bits sizeSecond).trans (bits sizeSecond').symm),
    differing_append ((bits sizeThird).trans (bits sizeThird').symm)]
  simp [word, sizeFirst, sizeSecond, sizeThird, sizeFourth, sizeFirst', sizeSecond', sizeThird',
    sizeFourth']

/-- Turning both signatures round keeps their distance. -/
theorem hamming_reversed (sig other : Sig) :
    hamming sig.reversed other.reversed = hamming sig other := by
  have sizes : sig.bytes.length = other.bytes.length :=
    sig.length_bytes.trans other.length_bytes.symm
  calc hamming sig.reversed other.reversed
      = differing (sig.bytes.reverse.flatMap byteBits) (other.bytes.reverse.flatMap byteBits) :=
        hamming_ofBytes (by rw [List.length_reverse, length_bytes])
          (by rw [List.length_reverse, length_bytes])
    _ = differing (sig.bytes.flatMap byteBits) (other.bytes.flatMap byteBits) :=
        differing_reverse sizes
    _ = hamming (ofBytes sig.bytes) (ofBytes other.bytes) :=
        (hamming_ofBytes sig.length_bytes other.length_bytes).symm
    _ = hamming sig other := by rw [ofBytes_bytes, ofBytes_bytes]

theorem reversed_eq_iff (sig : Sig) : sig.reversed = sig ↔ sig.bytes.reverse = sig.bytes := by
  have size : sig.bytes.reverse.length = 32 := by rw [List.length_reverse, length_bytes]
  constructor
  · intro same
    have bytes := congrArg Sig.bytes same
    rw [reversed, bytes_ofBytes size] at bytes
    exact bytes
  · intro same
    rw [reversed, same, ofBytes_bytes]

end Sig

/-! ## The digits -/

theorem hexDigit_lt {c : Char} {digit : Nat} (read : hexDigit c = some digit) : digit < 16 := by
  have ranges : ∀ {low high : Char}, low ≤ c ∧ c ≤ high → low.toNat ≤ c.toNat ∧ c.toNat ≤ high.toNat :=
    fun between => between
  rw [hexDigit] at read
  split at read
  next between =>
    have numbers := ranges between
    cases read
    simp at numbers
    omega
  next =>
    split at read
    next between =>
      have numbers := ranges between
      cases read
      simp at numbers
      omega
    next =>
      split at read
      next between =>
        have numbers := ranges between
        cases read
        simp at numbers
        omega
      next => cases read

/-- Two digits spell a byte, the high one first. -/
theorem nibbleBits_pair {high low : Nat} (highDigit : high < 16) (lowDigit : low < 16) :
    nibbleBits low ++ nibbleBits high = byteBits (UInt8.ofNat (16 * high + low)) := by
  have all : ∀ high < 16, ∀ low < 16,
      nibbleBits low ++ nibbleBits high = byteBits (UInt8.ofNat (16 * high + low)) := by decide
  exact all high highDigit low lowDigit

theorem hexDecode_length {hex : Text} {bytes : Bytes} (decoded : hexDecode hex = some bytes) :
    2 * bytes.length = hex.length := by
  induction hex using hexDecode.induct generalizing bytes with
  | case1 =>
      cases decoded
      rfl
  | case2 => nomatch decoded
  | case3 high low rest inductionHypothesis =>
      rw [hexDecode] at decoded
      obtain ⟨first, _, decoded⟩ := Option.bind_eq_some_iff.mp decoded
      obtain ⟨second, _, decoded⟩ := Option.bind_eq_some_iff.mp decoded
      obtain ⟨others, later, rfl⟩ := Option.map_eq_some_iff.mp decoded
      have lengths := inductionHypothesis later
      simp only [List.length_cons]
      omega

theorem hexDecode_digits {hex : Text} {count : Nat} (length : hex.length = 2 * count)
    (digits : ∀ c ∈ hex, (hexDigit c).isSome = true) : ∃ bytes, hexDecode hex = some bytes := by
  induction hex using hexDecode.induct generalizing count with
  | case1 => exact ⟨[], rfl⟩
  | case2 c =>
      rw [List.length_singleton] at length
      omega
  | case3 high low rest inductionHypothesis =>
      have shorter : rest.length = 2 * (count - 1) := by
        simp only [List.length_cons] at length
        omega
      obtain ⟨first, readFirst⟩ := Option.isSome_iff_exists.mp (digits high (by simp))
      obtain ⟨second, readSecond⟩ := Option.isSome_iff_exists.mp (digits low (by simp))
      obtain ⟨others, later⟩ := inductionHypothesis shorter
        fun c member => digits c (List.mem_cons_of_mem _ (List.mem_cons_of_mem _ member))
      exact ⟨UInt8.ofNat (16 * first + second) :: others, by
        rw [hexDecode, readFirst, readSecond, later]
        rfl⟩

/-- The nibbles from the last one on are the bits of the bytes from the last one on. -/
theorem mapM_reverse_hexDigit {hex : Text} {bytes : Bytes} (decoded : hexDecode hex = some bytes) :
    ∃ nibbles, hex.reverse.mapM hexDigit = some nibbles ∧
      nibbles.flatMap nibbleBits = bytes.reverse.flatMap byteBits := by
  induction hex using hexDecode.induct generalizing bytes with
  | case1 =>
      cases decoded
      exact ⟨[], rfl, rfl⟩
  | case2 => nomatch decoded
  | case3 high low rest inductionHypothesis =>
      rw [hexDecode] at decoded
      obtain ⟨first, readFirst, decoded⟩ := Option.bind_eq_some_iff.mp decoded
      obtain ⟨second, readSecond, decoded⟩ := Option.bind_eq_some_iff.mp decoded
      obtain ⟨others, later, rfl⟩ := Option.map_eq_some_iff.mp decoded
      obtain ⟨nibbles, read, bits⟩ := inductionHypothesis later
      have pair : [low, high].mapM hexDigit = some [second, first] := by
        rw [List.mapM_cons, List.mapM_cons, readFirst, readSecond]
        rfl
      refine ⟨nibbles ++ [second, first], ?_, ?_⟩
      · rw [List.reverse_cons, List.reverse_cons, List.append_assoc, List.singleton_append,
          List.mapM_append, read, pair]
        rfl
      · rw [List.flatMap_append, bits, List.reverse_cons, List.flatMap_append]
        congr 1
        simp only [List.flatMap_cons, List.flatMap_nil, List.append_nil]
        exact nibbleBits_pair (hexDigit_lt readFirst) (hexDigit_lt readSecond)

theorem hexDecode_hexEncode (bytes : Bytes) : hexDecode (hexEncode bytes) = some bytes := by
  have digits : ∀ value < 16, hexDigit (Nat.digitChar value) = some value := by decide
  induction bytes with
  | nil => rfl
  | cons byte rest inductionHypothesis =>
      have high := digits (byte.toNat / 16) (Nat.div_lt_of_lt_mul byte.toNat_lt)
      have low := digits (byte.toNat % 16) (Nat.mod_lt _ (by decide))
      have whole : 16 * (byte.toNat / 16) + byte.toNat % 16 = byte.toNat := Nat.div_add_mod _ _
      have split : hexEncode (byte :: rest) = Nat.digitChar (byte.toNat / 16) ::
          Nat.digitChar (byte.toNat % 16) :: hexEncode rest := rfl
      rw [split, hexDecode, high, low, inductionHypothesis]
      simp only [Option.bind_some, Option.map_some, whole, UInt8.ofNat_toNat]

/-! ## The two codecs -/

/-- The daemon reads the bytes from the last one on. -/
theorem recallSig_decoded {hex : Text} {bytes : Bytes} (decoded : hexDecode hex = some bytes)
    (size : bytes.length = 32) : recallSig hex = some (Sig.ofBytes bytes.reverse) := by
  obtain ⟨nibbles, read, bits⟩ := mapM_reverse_hexDigit decoded
  have length : hex.length = rBits / 4 := by
    rw [← hexDecode_length decoded, size]
    rfl
  have turned : bytes.reverse.length = 32 := by rw [List.length_reverse, size]
  rw [recallSig, parseSigHex, if_neg (not_not.mpr length), read, Option.map_some, Option.map_some,
    bits, Sig.ofBits_bytes turned]

variable {tables : Unicode}

theorem sigFromHex_decoded
    (solid : ∀ c, (hexDigit c).isSome = true → tables.isWhitespace c = false) {hex : Text}
    (digits : ∀ c ∈ hex, (hexDigit c).isSome = true) {bytes : Bytes}
    (decoded : hexDecode hex = some bytes) (size : bytes.length = 32) :
    sigFromHex tables hex = some (Sig.ofBytes bytes) := by
  have untrimmed : tables.trim hex = hex := by
    apply trim_of_trimmed
    rintro c (first | last)
    · exact solid c (digits c (List.mem_of_head? first))
    · exact solid c (digits c (List.mem_of_getLast? last))
  rw [sigFromHex, untrimmed, decoded, Option.bind_some, if_pos size]
  rfl

/-- Both read every hexadecimal signature, each as the other with its bytes turned round; so what
one writes the other reads turned round, and signatures that come the same way keep their
distance. -/
theorem codecs_turned (solid : ∀ c, (hexDigit c).isSome = true → tables.isWhitespace c = false)
    {hex : Text} (length : hex.length = 64) (digits : ∀ c ∈ hex, (hexDigit c).isSome = true) :
    (∃ sig, sigFromHex tables hex = some sig ∧ recallSig hex = some sig.reversed ∧
      (recallSig hex = sigFromHex tables hex ↔ sig.bytes.reverse = sig.bytes)) ∧
    ∀ sig other : Sig, recallSig (sigToHex sig) = some sig.reversed ∧
      (recallSig (sigToHex sig) = some sig ↔ sig.bytes.reverse = sig.bytes) ∧
      hamming sig.reversed other.reversed = hamming sig other := by
  constructor
  · obtain ⟨bytes, decoded⟩ := @hexDecode_digits _ 32 length digits
    have size : bytes.length = 32 := by
      have lengths := hexDecode_length decoded
      omega
    have ours := sigFromHex_decoded solid digits decoded size
    have theirs := recallSig_decoded decoded size
    have bytesBack := Sig.bytes_ofBytes size
    refine ⟨Sig.ofBytes bytes, ours, ?_, ?_⟩
    · rw [theirs, Sig.reversed, bytesBack]
    · rw [theirs, ours, Option.some_inj, ← Sig.reversed_eq_iff, Sig.reversed, bytesBack]
  · intro sig other
    have turned : recallSig (sigToHex sig) = some sig.reversed :=
      recallSig_decoded (hexDecode_hexEncode sig.bytes) sig.length_bytes
    refine ⟨turned, ?_, Sig.hamming_reversed sig other⟩
    rw [turned, Option.some_inj, Sig.reversed_eq_iff]

def lowBit : Sig := ⟨[1, 0, 0, 0], rfl⟩

theorem ascii_hexDigit_solid (c : Char) (digit : (hexDigit c).isSome = true) :
    Unicode.ascii.isWhitespace c = false := by
  apply Bool.eq_false_of_not_eq_true
  intro white
  have spaces : ∀ c ∈ [' ', '\t', '\n', '\r'], (hexDigit c).isSome = false := by
    intro c member
    fin_cases member <;> rfl
  rw [spaces c (List.contains_iff_mem.mp white)] at digit
  nomatch digit

theorem codecs_turned_lowBit :
    recallSig (sigToHex lowBit) = some lowBit.reversed :=
  ((@codecs_turned _ ascii_hexDigit_solid (sigToHex lowBit) (by decide)
    (List.all_eq_true.mp (by decide))).2 lowBit lowBit).1

set_option maxRecDepth 8000 in
/-- The lowest bit comes back as bit 248. -/
theorem codecs_differ :
    sigFromHex Unicode.ascii ("01".toList ++ List.replicate 62 '0') = some lowBit ∧
      recallSig ("01".toList ++ List.replicate 62 '0') = some ⟨[0, 0, 0, 2 ^ 56], rfl⟩ ∧
      recallSig (sigToHex lowBit) ≠ some lowBit ∧ hamming lowBit lowBit.reversed = 2 := by
  decide

end KairosEngine.Swarm
