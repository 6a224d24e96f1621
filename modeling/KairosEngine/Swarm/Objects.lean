import KairosEngine.Daemon.RegistryFile
import KairosEngine.Library.Utf8

/-!
# The objects of `sp_swarm`

Content addresses, frontmatter, the two address classes and the provenance check that an object
passes on arrival.  The digest and the signature scheme are parameters.
-/

namespace KairosEngine.Swarm

open KairosEngine.Library KairosEngine.Daemon

structure Signature where
  bytes : Bytes
  size : bytes.length = 64
  deriving DecidableEq

def Signature.fromSlice (bytes : Bytes) : Option Signature :=
  if size : bytes.length = 64 then some ⟨bytes, size⟩ else none

structure Digest where
  bytes : Bytes
  size : bytes.length = 32

/-- SHA-256 and the check of an Ed25519 signature. -/
structure Crypto (Key : Type) where
  sha256 : Bytes → Digest
  verify : Key → Bytes → Signature → Bool

abbrev Roster (Key : Type) := Text → Option Key

/-! ## Texts -/

/-- `replace("\r\n", "\n")`. -/
def unixLines : Text → Text
  | '\r' :: '\n' :: rest => '\n' :: unixLines rest
  | c :: rest => c :: unixLines rest
  | [] => []

def stripPrefix (pattern text : Text) : Option Text :=
  if pattern.isPrefixOf text then some (text.drop pattern.length) else none

/-- The text before the first occurrence of the pattern and the text behind it. -/
def cutAt (pattern : Text) : Text → Option (Text × Text)
  | [] => if pattern = [] then some ([], []) else none
  | c :: rest =>
      match stripPrefix pattern (c :: rest) with
      | some behind => some ([], behind)
      | none => (cutAt pattern rest).map fun cut => (c :: cut.1, cut.2)

def hexEncode (bytes : Bytes) : Text :=
  bytes.flatMap fun byte => [Nat.digitChar (byte.toNat / 16), Nat.digitChar (byte.toNat % 16)]

/-- `hex::decode`. -/
def hexDecode : Text → Option Bytes
  | [] => some []
  | [_] => none
  | high :: low :: rest =>
      (hexDigit high).bind fun high => (hexDigit low).bind fun low =>
        (hexDecode rest).map fun bytes => UInt8.ofNat (16 * high + low) :: bytes

/-! ## Addresses and frontmatter -/

section Objects

variable (tables : Unicode) {Key : Type} (crypto : Crypto Key)

def norm (body : Text) : Text := tables.trim (unixLines body) ++ ['\n']

def addrOf (body : Text) : Text :=
  (hexEncode (crypto.sha256 (utf8 (norm tables body))).bytes).take 16

def signingPayload (addr body : Text) : Bytes :=
  utf8 (addr ++ ['\n']) ++ utf8 (norm tables body)

/-- The pairs of the map in the order of insertion; a later one replaces an earlier one. -/
abbrev Frontmatter := List (Text × Text)

def Frontmatter.get (fm : Frontmatter) (key : String) : Option Text :=
  fm.reverse.lookup key.toList

def parseFm (text : Text) : Frontmatter × Text :=
  let text := unixLines text
  match (stripPrefix "---\n".toList text).bind (cutAt "\n---".toList) with
  | some (front, after) =>
      ((front.splitOn '\n').filterMap (keyValue tables), (stripPrefix ['\n'] after).getD after)
  | none => ([], text)

inductive Class
  | content
  | c2
  | bad
  deriving DecidableEq

def classify (addr : Text) (fm : Frontmatter) (body : Text) : Class :=
  if addrOf tables crypto body = addr then .content
  else if fm.get "mem_addr" = some addr ∧ fm.get "mem_kind" = some "episode".toList then .c2
  else .bad

inductive Reject
  | unsigned
  | untrustedSigner
  | sigInvalid
  | integrityFail
  | missing
  deriving DecidableEq

def Reject.asStr : Reject → String
  | .unsigned => "unsigned"
  | .untrustedSigner => "untrusted-signer"
  | .sigInvalid => "sig-invalid"
  | .integrityFail => "integrity-fail"
  | .missing => "missing-on-remote"

def verifyProvenance (addr : Text) (fm : Frontmatter) (body : Text) (roster : Roster Key) :
    Except Reject Unit :=
  match fm.get "mem_signer", fm.get "mem_sig" with
  | some signer, some sigHex =>
      if signer = [] ∨ sigHex = [] then .error .unsigned
      else
        match roster signer with
        | none => .error .untrustedSigner
        | some key =>
            match (hexDecode sigHex).bind Signature.fromSlice with
            | none => .error .sigInvalid
            | some sig =>
                if crypto.verify key (signingPayload tables addr body) sig then .ok ()
                else .error .sigInvalid
  | _, _ => .error .unsigned

def accept (addr text : Text) (roster : Option (Roster Key)) : Except Reject Class :=
  let (fm, body) := parseFm tables text
  let cls := classify tables crypto addr fm body
  if cls = .bad then .error .integrityFail
  else
    match roster with
    | none => .ok cls
    | some roster => (verifyProvenance tables crypto addr fm body roster).map fun _ => cls

/-- What `accept` says to a text under this address. -/
def Accepted (roster : Roster Key) (addr text : Text) : Prop :=
  ∃ cls, accept tables crypto addr text (some roster) = .ok cls

/-! ## What a signing payload looks like -/

/-- No white space at either end. -/
def Trimmed (text : Text) : Prop :=
  ∀ c, text.head? = some c ∨ text.getLast? = some c → tables.isWhitespace c = false

/-- Some line begins with a character that is no white space. -/
def startsLine : Text → Bool
  | '\n' :: c :: rest => !tables.isWhitespace c || startsLine (c :: rest)
  | _ :: rest => startsLine rest
  | [] => false

/-- A text that ends in an empty line, or whose last line is the end of a trimmed text that began
a line. -/
def payloadText (text : Text) : Bool :=
  match text.reverse with
  | '\n' :: '\n' :: _ => true
  | '\n' :: last :: before => !tables.isWhitespace last && startsLine tables (last :: before).reverse
  | _ => false

def payloadShaped (bytes : Bytes) : Bool :=
  match fromUtf8 bytes with
  | some text => payloadText tables text
  | none => false

/-- A text with the line ends that `unixLines` replaces. -/
def dosLines (text : Text) : Text := text.flatMap fun c => if c = '\n' then ['\r', '\n'] else [c]

variable {tables}

theorem trim_trimmed (text : Text) : Trimmed tables (tables.trim text) := by
  have ended : ∀ {text : Text} {c}, (text.dropWhile tables.isWhitespace).head? = some c →
      tables.isWhitespace c = false := by
    intro text c first
    have kept := List.head?_dropWhile_not tables.isWhitespace text
    rw [first] at kept
    exact kept
  intro c margin
  unfold Unicode.trim at margin
  rcases margin with first | last
  · have whole : ((text.dropWhile tables.isWhitespace).reverse.dropWhile
        tables.isWhitespace).reverse <+: text.dropWhile tables.isWhitespace := by
      have suffixed := List.dropWhile_suffix tables.isWhitespace
        (l := (text.dropWhile tables.isWhitespace).reverse)
      rw [← List.reverse_prefix, List.reverse_reverse] at suffixed
      exact suffixed
    obtain ⟨rest, split⟩ := whole
    apply @ended text
    rw [← split, List.head?_append, first, Option.some_or]
  · rw [List.getLast?_reverse] at last
    exact ended last

theorem trim_of_trimmed {text : Text} (trimmed : Trimmed tables text) : tables.trim text = text := by
  have kept : ∀ {text : Text}, (∀ c, text.head? = some c → tables.isWhitespace c = false) →
      text.dropWhile tables.isWhitespace = text := by
    intro text first
    cases text with
    | nil => rfl
    | cons c rest => rw [List.dropWhile_cons_of_neg (by simp [first c rfl])]
  rw [Unicode.trim, kept fun c first => trimmed c (.inl first), kept, List.reverse_reverse]
  intro c last
  rw [List.head?_reverse] at last
  exact trimmed c (.inr last)

theorem unixLines_cons {c : Char} {rest : Text} (single : c = '\r' → rest.head? ≠ some '\n') :
    unixLines (c :: rest) = c :: unixLines rest := by
  rw [unixLines]
  rintro later rfl rfl
  exact single rfl rfl

theorem unixLines_dosLines (text : Text) : unixLines (dosLines text) = text := by
  induction text with
  | nil => rfl
  | cons c rest inductionHypothesis =>
      by_cases newline : c = '\n'
      · subst newline
        exact congrArg (List.cons '\n') inductionHypothesis
      · have single : dosLines (c :: rest) = c :: dosLines rest := by
          rw [dosLines, List.flatMap_cons, if_neg newline]
          rfl
        rw [single, unixLines_cons, inductionHypothesis]
        intro _ first
        cases rest with
        | nil => cases first
        | cons next later =>
            rw [dosLines, List.flatMap_cons] at first
            by_cases newline : next = '\n'
            · rw [if_pos newline] at first
              cases first
            · rw [if_neg newline] at first
              exact newline (Option.some.inj first)

theorem startsLine_iff {text : Text} :
    startsLine tables text = true ↔
      ∃ before c behind, text = before ++ '\n' :: c :: behind ∧ tables.isWhitespace c = false := by
  induction text with
  | nil => simp [startsLine]
  | cons head rest inductionHypothesis =>
      have later : startsLine tables rest = true → ∃ before c behind,
          head :: rest = before ++ '\n' :: c :: behind ∧ tables.isWhitespace c = false := by
        intro starts
        obtain ⟨before, c, behind, split, solid⟩ := inductionHypothesis.mp starts
        exact ⟨head :: before, c, behind, by rw [split, List.cons_append], solid⟩
      constructor
      · intro starts
        unfold startsLine at starts
        split at starts
        next c behind same =>
          obtain ⟨rfl, rfl⟩ := List.cons.inj same
          rcases Bool.or_eq_true _ _ ▸ starts with solid | starts
          · exact ⟨[], c, behind, rfl, by simpa using solid⟩
          · exact later starts
        next same =>
          obtain ⟨rfl, rfl⟩ := List.cons.inj same
          exact later starts
        next same => cases same
      · rintro ⟨before, c, behind, split, solid⟩
        cases before with
        | nil =>
            obtain ⟨rfl, rfl⟩ := List.cons.inj split
            simp [startsLine, solid]
        | cons first before =>
            obtain ⟨rfl, rfl⟩ := List.cons.inj split
            have starts := inductionHypothesis.mpr ⟨before, c, behind, rfl, solid⟩
            unfold startsLine
            split
            next same =>
              obtain ⟨rfl, found⟩ := List.cons.inj same
              rw [found] at starts
              rw [starts, Bool.or_true]
            next same =>
              obtain ⟨rfl, rfl⟩ := List.cons.inj same
              exact starts
            next same => cases same

theorem payloadText_iff {text : Text} :
    payloadText tables text = true ↔
      ∃ addr body, Trimmed tables body ∧ text = addr ++ '\n' :: (body ++ ['\n']) := by
  constructor
  · intro shaped
    unfold payloadText at shaped
    split at shaped
    next before same =>
      refine ⟨before.reverse, [], nofun, ?_⟩
      rw [← List.reverse_reverse text, same]
      simp
    next last before _ same =>
      obtain ⟨solid, starts⟩ := Bool.and_eq_true _ _ ▸ shaped
      obtain ⟨addr, c, behind, split, first⟩ := startsLine_iff.mp starts
      refine ⟨addr, c :: behind, ?_, ?_⟩
      · have ended := congrArg List.getLast? split
        rw [List.reverse_cons, List.getLast?_concat, List.getLast?_append_cons,
          List.getLast?_cons_cons] at ended
        rintro other (head | final)
        · exact Option.some.inj head ▸ first
        · rw [← ended, Option.some.injEq] at final
          rw [← final]
          simpa using solid
      · rw [← List.reverse_reverse text, same, List.reverse_cons, split]
        simp
    next => cases shaped
  · rintro ⟨addr, body, trimmed, rfl⟩
    unfold payloadText
    cases final : body.reverse with
    | nil =>
        rw [List.reverse_eq_nil_iff] at final
        rw [final]
        simp
    | cons last before =>
        have ended : body = before.reverse ++ [last] := by
          rw [← List.reverse_cons, ← final, List.reverse_reverse]
        have solid := trimmed last (.inr (by rw [ended, List.getLast?_concat]))
        have turned : (addr ++ '\n' :: (body ++ ['\n'])).reverse =
            '\n' :: last :: (before ++ '\n' :: addr.reverse) := by
          rw [ended]
          simp
        rw [turned]
        split
        next => rfl
        next same =>
          obtain ⟨rfl, rfl⟩ := List.cons.inj (List.cons.inj same).2
          have whole : (last :: (before ++ '\n' :: addr.reverse)).reverse = addr ++ '\n' :: body := by
            rw [ended]
            simp
          rw [whole, solid, Bool.not_false, Bool.true_and]
          cases body with
          | nil => simp at ended
          | cons c behind =>
              exact startsLine_iff.mpr ⟨addr, c, behind, rfl, trimmed c (.inl rfl)⟩
        next unlike => exact absurd rfl (unlike last _)

theorem signingPayload_eq (addr body : Text) :
    signingPayload tables addr body =
      utf8 (addr ++ '\n' :: (tables.trim (unixLines body) ++ ['\n'])) := by
  rw [signingPayload, norm, ← utf8_append, List.append_assoc]
  rfl

/-- The challenges that are signing payloads of some address and body. -/
theorem payloadShaped_iff {bytes : Bytes} :
    payloadShaped tables bytes = true ↔ ∃ addr body, bytes = signingPayload tables addr body := by
  simp only [signingPayload_eq]
  constructor
  · intro shaped
    unfold payloadShaped at shaped
    split at shaped
    next text decoded =>
      obtain ⟨addr, body, trimmed, rfl⟩ := payloadText_iff.mp shaped
      refine ⟨addr, dosLines body, ?_⟩
      rw [unixLines_dosLines, trim_of_trimmed trimmed, fromUtf8_eq_some_iff.mp decoded]
    next => cases shaped
  · rintro ⟨addr, body, rfl⟩
    rw [payloadShaped, fromUtf8_utf8]
    exact payloadText_iff.mpr ⟨addr, _, trim_trimmed _, rfl⟩

end Objects

end KairosEngine.Swarm
