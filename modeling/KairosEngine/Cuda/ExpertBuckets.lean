import KairosEngine.Library.Striping
import KairosEngine.Cuda.RouterTopk

/-!
# The buckets of a block of tokens

`g4_ffn_apply` puts every chosen expert's tokens and weights into a stripe of `bkt` and `bktw`;
with `SP_MOE_BUCKET_PIN` the stripes are packed behind each other at `boff`.  The expert loop goes
over either layout.
-/

namespace KairosEngine.Cuda

open KairosEngine.Library

variable {Float Double : Type}

/-! ## The loops -/

/-- `bkt_n`, `bkt` and `bktw`, with `n_tok` places to an expert. -/
structure TokenBuckets (Float : Type) where
  n : Nat → Nat
  bkt : Nat → Nat
  bktw : Nat → Float

def TokenBuckets.put (nTok t : Nat) (buckets : TokenBuckets Float) (e : Nat) (wt : Float) :
    TokenBuckets Float :=
  let slot := buckets.n e
  { n := Function.update buckets.n e (slot + 1)
    bkt := Function.update buckets.bkt (e * nTok + slot) t
    bktw := Function.update buckets.bktw (e * nTok + slot) wt }

/-- The chosen experts of one token; none where an index is out of range. -/
def bucketToken (NE nTok t : Nat) :
    List (Option Nat × Float) → TokenBuckets Float → Option (TokenBuckets Float)
  | [], buckets => some buckets
  | (some e, wt) :: rest, buckets =>
      if e < NE then bucketToken NE nTok t rest (buckets.put nTok t e wt) else none
  | (none, _) :: _, _ => none

section Block

variable (arith : MoeArith Float Double) (NE NU nTok : Nat) (logh : Nat → Float)

/-- The router row of a token. -/
def logitRow (t : Nat) : List Float := (List.range NE).map fun i => logh (t * NE + i)

/-- The bucketing loop up to a token, behind its `memset`. -/
def bucketTokens (start : TokenBuckets Float) : Nat → Option (TokenBuckets Float)
  | 0 => some { start with n := fun _ => 0 }
  | t + 1 =>
      (bucketTokens start t).bind
        (bucketToken NE nTok t (arith.moeTopkHost (logitRow NE logh t) NU))

/-- The token-major order: what a token gives to its experts. -/
def tokenPairs (t : Nat) : List (Nat × Nat × Float) :=
  (arith.moeTopkHost (logitRow NE logh t) NU).filterMap fun entry =>
    entry.1.map fun e => (e, t, entry.2)

def tokenMajor (tokens : Nat) : List (Nat × Nat × Float) :=
  (List.range tokens).flatMap (tokenPairs arith NE NU logh)

end Block

/-- `boff`, `brows_h` and `bw_h`. -/
structure PackedBuckets (Float : Type) where
  off : Nat
  boff : Nat → Nat
  brows : Nat → Nat
  bw : Nat → Float

/-- An inner loop that copies so many values to an offset. -/
def copyTo {Value : Type} (target : Nat → Value) (off cnt : Nat) (source : Nat → Value) :
    Nat → Value :=
  fun place => if off ≤ place ∧ place < off + cnt then source (place - off) else target place

/-- The packing loop up to an expert. -/
def packBuckets (arith : MoeArith Float Double) (nTok : Nat) (buckets : TokenBuckets Float)
    (dsc : Nat → Float) (start : PackedBuckets Float) : Nat → PackedBuckets Float
  | 0 => { start with off := 0 }
  | e + 1 =>
      let packed := packBuckets arith nTok buckets dsc start e
      let cnt := buckets.n e
      { off := packed.off + cnt
        boff := Function.update packed.boff e packed.off
        brows := copyTo packed.brows packed.off cnt fun i => buckets.bkt (e * nTok + i)
        bw := copyTo packed.bw packed.off cnt fun i =>
          arith.mul (buckets.bktw (e * nTok + i)) (dsc e) }

/-- The expert loop over the packed buckets: the token, the expert and the weight of every row. -/
def expertLoopPacked (NE : Nat) (buckets : TokenBuckets Float) (packed : PackedBuckets Float) :
    List (Nat × Nat × Float) :=
  (List.range NE).flatMap fun e => (List.range (buckets.n e)).map fun i =>
    (packed.brows (packed.boff e + i), e, packed.bw (packed.boff e + i))

/-- The expert loop over the stripes, copied out expert by expert. -/
def expertLoopStriped (arith : MoeArith Float Double) (NE nTok : Nat) (buckets : TokenBuckets Float)
    (dsc : Nat → Float) : List (Nat × Nat × Float) :=
  (List.range NE).flatMap fun e => (List.range (buckets.n e)).map fun i =>
    (buckets.bkt (e * nTok + i), e, arith.mul (buckets.bktw (e * nTok + i)) (dsc e))

/-! ## The chosen experts are distinct -/

section Distinct

variable (arith : MoeArith Float Double)

theorem filterMap_fst_cons (id : Nat) (p : Float) (rest : List (Option Nat × Float)) :
    ((some id, p) :: rest).filterMap Prod.fst = id :: rest.filterMap Prod.fst := rfl

theorem mem_insertTop {expert : Nat} {p : Float} {found : Option Nat × Float} :
    ∀ {entries : List (Option Nat × Float)}, found ∈ arith.insertTop expert p entries →
      found = (some expert, p) ∨ found ∈ entries
  | [], member => absurd member List.not_mem_nil
  | entry :: rest, member => by
    rw [MoeArith.insertTop] at member
    split at member
    next =>
      rcases List.mem_cons.mp member with rfl | later
      · exact Or.inl rfl
      · exact Or.inr ((List.dropLast_sublist _).subset later)
    next =>
      rcases List.mem_cons.mp member with rfl | later
      · exact Or.inr List.mem_cons_self
      · exact (mem_insertTop later).imp_right (List.mem_cons_of_mem _)

/-- A new expert leaves the experts of the array distinct, whatever the comparison says. -/
theorem nodup_insertTop {expert : Nat} {p : Float} :
    ∀ {entries : List (Option Nat × Float)}, (entries.filterMap Prod.fst).Nodup →
      expert ∉ entries.filterMap Prod.fst →
      ((arith.insertTop expert p entries).filterMap Prod.fst).Nodup
  | [], _, _ => List.nodup_nil
  | entry :: rest, distinct, fresh => by
    rw [MoeArith.insertTop]
    split
    next =>
      have kept := (List.dropLast_sublist (entry :: rest)).filterMap Prod.fst
      rw [filterMap_fst_cons]
      exact List.nodup_cons.mpr ⟨fun member => fresh (kept.subset member), distinct.sublist kept⟩
    next =>
      obtain ⟨id, q⟩ := entry
      cases id with
      | none =>
          rw [List.filterMap_cons_none rfl] at distinct fresh ⊢
          exact nodup_insertTop distinct fresh
      | some other =>
          rw [filterMap_fst_cons] at distinct fresh ⊢
          obtain ⟨apart, tail⟩ := List.nodup_cons.mp distinct
          rw [List.mem_cons, not_or] at fresh
          refine List.nodup_cons.mpr ⟨fun member => ?_, nodup_insertTop tail fresh.2⟩
          obtain ⟨found, present, same⟩ := List.mem_filterMap.mp member
          rcases mem_insertTop arith present with rfl | before
          · exact fresh.1 (Option.some.inj same)
          · exact apart (List.mem_filterMap.mpr ⟨found, before, same⟩)

/-- The ids of a row are distinct. -/
theorem moeTopkHost_nodup (logits : List Float) (NU : Nat) :
    ((arith.moeTopkHost logits NU).filterMap Prod.fst).Nodup := by
  have empty : (List.replicate NU ((none : Option Nat), arith.negOne)).filterMap Prod.fst = [] := by
    rw [List.filterMap_eq_nil_iff]
    intro entry member
    rw [List.eq_of_mem_replicate member]
  have scanned : ∀ (probs : List Float) (first : Nat) (entries : List (Option Nat × Float)),
      (entries.filterMap Prod.fst).Nodup → (∀ id ∈ entries.filterMap Prod.fst, id < first) →
      (((probs.zipIdx first).foldl
        (fun entries scored => arith.insertTop scored.2 scored.1 entries) entries).filterMap
          Prod.fst).Nodup := by
    intro probs
    induction probs with
    | nil => exact fun _ _ distinct _ => distinct
    | cons p rest inductionHypothesis =>
        intro first entries distinct below
        rw [List.zipIdx_cons, List.foldl_cons]
        apply inductionHypothesis
        · exact nodup_insertTop arith distinct fun member => Nat.lt_irrefl _ (below first member)
        · intro id member
          obtain ⟨found, present, same⟩ := List.mem_filterMap.mp member
          rcases mem_insertTop arith present with rfl | before
          · rw [← Option.some.inj same]
            exact Nat.lt_succ_self first
          · exact Nat.lt_succ_of_lt (below id (List.mem_filterMap.mpr ⟨found, before, same⟩))
  have ids : ∀ entries : List (Option Nat × Float), ∀ wsum,
      (entries.map fun entry => (entry.1, arith.div entry.2 wsum)).filterMap Prod.fst =
        entries.filterMap Prod.fst := by
    intro entries wsum
    rw [List.filterMap_map]
    rfl
  simp only [MoeArith.moeTopkHost]
  rw [ids]
  apply scanned
  · rw [empty]
    exact List.nodup_nil
  · rw [empty]
    exact fun _ member => absurd member List.not_mem_nil

end Distinct

/-! ## The stripes -/

section Stripes

variable {NE NU nTok t : Nat} {buckets filled : TokenBuckets Float}

/-- The two arrays as one. -/
def TokenBuckets.cells (buckets : TokenBuckets Float) (place : Nat) : Nat × Float :=
  (buckets.bkt place, buckets.bktw place)

theorem put_cells (e : Nat) (wt : Float) :
    (buckets.put nTok t e wt).cells =
      Function.update buckets.cells (e * nTok + buckets.n e) (t, wt) := by
  funext place
  by_cases here : place = e * nTok + buckets.n e
  · subst here
    simp only [TokenBuckets.put, TokenBuckets.cells, Function.update_self]
  · simp only [TokenBuckets.put, TokenBuckets.cells, Function.update_of_ne here]

/-- The pairs of one token. -/
def pairsOf (t : Nat) (entries : List (Option Nat × Float)) : List (Nat × Nat × Float) :=
  entries.filterMap fun entry => entry.1.map fun e => (e, t, entry.2)

theorem pairsOf_keys (t : Nat) (entries : List (Option Nat × Float)) :
    (pairsOf t entries).map Prod.fst = entries.filterMap Prod.fst := by
  rw [pairsOf, List.map_filterMap]
  apply List.filterMap_congr
  intro entry _
  rw [Option.map_map]
  exact Option.map_id' ..

/-- One token adds its pairs to the stripes, where every expert it chose has room. -/
theorem bucketToken_striped :
    ∀ {entries : List (Option Nat × Float)} {buckets : TokenBuckets Float}
      {pushed : List (Nat × Nat × Float)}, Striped nTok pushed buckets.n buckets.cells →
      (∀ key, (under pushed key).length ≤ nTok) → (entries.filterMap Prod.fst).Nodup →
      (∀ e ∈ entries.filterMap Prod.fst, (under pushed e).length < nTok) →
      bucketToken NE nTok t entries buckets = some filled →
      Striped nTok (pushed ++ pairsOf t entries) filled.n filled.cells ∧
        ∀ pair ∈ pairsOf t entries, pair.1 < NE
  | [], buckets, pushed, striped, _, _, _, done => by
    cases done
    rw [pairsOf, List.filterMap_nil, List.append_nil]
    exact ⟨striped, fun _ member => absurd member List.not_mem_nil⟩
  | (none, wt) :: rest, buckets, pushed, _, _, _, _, done => by cases done
  | (some e, wt) :: rest, buckets, pushed, striped, bounded, distinct, room, done => by
    rw [filterMap_fst_cons] at distinct room
    obtain ⟨apart, tail⟩ := List.nodup_cons.mp distinct
    rw [bucketToken] at done
    split at done
    next inside =>
      have here := room e List.mem_cons_self
      have placed := striped.push bounded here (t, wt)
      rw [← put_cells] at placed
      have pairs : pairsOf t ((some e, wt) :: rest) = (e, t, wt) :: pairsOf t rest := rfl
      have length : ∀ key, (under (pushed ++ [(e, t, wt)]) key).length =
          (under pushed key).length + if e = key then 1 else 0 := by
        intro key
        rw [under_append, List.length_append]
        split
        next same =>
          subst same
          rw [under_singleton_self, List.length_singleton]
        next away => rw [under_singleton_of_ne _ away, List.length_nil]
      have after := bucketToken_striped placed
        (by
          intro key
          have before := bounded key
          rw [length]
          split
          next same =>
            subst same
            omega
          next => omega)
        tail
        (by
          intro other member
          have away : e ≠ other := fun same => apart (same ▸ member)
          rw [length, if_neg away]
          exact room other (List.mem_cons_of_mem _ member))
        done
      rw [pairs, List.append_cons]
      exact ⟨after.1, List.forall_mem_cons.mpr ⟨inside, after.2⟩⟩
    next => cases done

end Stripes

/-! ## The token-major order -/

section Tokens

variable {arith : MoeArith Float Double} {NE NU nTok : Nat} {logh : Nat → Float}

theorem tokenPairs_eq (t : Nat) :
    tokenPairs arith NE NU logh t = pairsOf t (arith.moeTopkHost (logitRow NE logh t) NU) := rfl

theorem tokenMajor_succ (t : Nat) :
    tokenMajor arith NE NU logh (t + 1) =
      tokenMajor arith NE NU logh t ++ tokenPairs arith NE NU logh t := by
  rw [tokenMajor, List.range_succ, List.flatMap_append, List.flatMap_singleton]
  rfl

theorem length_under_tokenPairs (t key : Nat) :
    (under (tokenPairs arith NE NU logh t) key).length ≤ 1 := by
  apply length_under_le_one
  rw [tokenPairs_eq, pairsOf_keys]
  exact moeTopkHost_nodup arith _ _

theorem under_tokenPairs {t key : Nat} {value : Nat × Float}
    (member : value ∈ under (tokenPairs arith NE NU logh t) key) : value.1 = t := by
  obtain ⟨entry, _, same⟩ := List.mem_filterMap.mp (mem_under.mp member)
  obtain ⟨e, _, pair⟩ := Option.map_eq_some_iff.mp same
  rw [Prod.mk.injEq] at pair
  rw [← pair.2]

/-- An expert's tokens ascend, so that there are at most as many as tokens. -/
theorem under_tokenMajor (key : Nat) :
    ∀ tokens,
      ((under (tokenMajor arith NE NU logh tokens) key).map Prod.fst).Pairwise (· < ·) ∧
        (∀ value ∈ under (tokenMajor arith NE NU logh tokens) key, value.1 < tokens) ∧
          (under (tokenMajor arith NE NU logh tokens) key).length ≤ tokens
  | 0 => ⟨List.Pairwise.nil, fun _ member => absurd member List.not_mem_nil, Nat.le_refl 0⟩
  | tokens + 1 => by
    obtain ⟨ascending, below, few⟩ := under_tokenMajor key tokens
    have one := @length_under_tokenPairs _ _ arith NE NU logh tokens key
    rw [tokenMajor_succ, under_append]
    refine ⟨?_, ?_, ?_⟩
    · rw [List.map_append, List.pairwise_append]
      refine ⟨ascending, ?_, ?_⟩
      · generalize under (tokenPairs arith NE NU logh tokens) key = values at one
        match values, one with
        | [], _ => exact List.Pairwise.nil
        | [value], _ => exact List.pairwise_singleton _ _
      · intro first firstMember second secondMember
        obtain ⟨value, member, rfl⟩ := List.mem_map.mp firstMember
        obtain ⟨other, later, rfl⟩ := List.mem_map.mp secondMember
        rw [under_tokenPairs later]
        exact below value member
    · intro value member
      rcases List.mem_append.mp member with before | here
      · exact Nat.lt_succ_of_lt (below value before)
      · rw [under_tokenPairs here]
        exact Nat.lt_succ_self tokens
    · rw [List.length_append]
      omega

/-- A loop that completes leaves the pairs of its tokens in the stripes. -/
theorem bucketTokens_striped {start : TokenBuckets Float} :
    ∀ {tokens : Nat} {filled : TokenBuckets Float}, tokens ≤ nTok →
      bucketTokens arith NE NU nTok logh start tokens = some filled →
      Striped nTok (tokenMajor arith NE NU logh tokens) filled.n filled.cells ∧
        ∀ pair ∈ tokenMajor arith NE NU logh tokens, pair.1 < NE
  | 0, filled, _, done => by
    cases done
    exact ⟨Striped.empty nTok _, fun _ member => absurd member List.not_mem_nil⟩
  | tokens + 1, filled, inside, done => by
    rw [bucketTokens] at done
    obtain ⟨before, reached, last⟩ := Option.bind_eq_some_iff.mp done
    obtain ⟨striped, keys⟩ := bucketTokens_striped (by omega) reached
    have few := fun key => (@under_tokenMajor _ _ arith NE NU logh key tokens).2.2
    obtain ⟨placed, inside⟩ := bucketToken_striped striped
      (fun key => Nat.le_trans (few key) (by omega)) (moeTopkHost_nodup arith _ _)
      (fun e _ => Nat.lt_of_le_of_lt (few e) (by omega)) last
    rw [tokenMajor_succ, tokenPairs_eq]
    exact ⟨placed, List.forall_mem_append.mpr ⟨keys, inside⟩⟩

/-- A token that is bucketed chose an expert with every entry. -/
theorem bucketToken_length {t : Nat} {filled : TokenBuckets Float} :
    ∀ {entries : List (Option Nat × Float)} {buckets : TokenBuckets Float},
      bucketToken NE nTok t entries buckets = some filled →
      (pairsOf t entries).length = entries.length
  | [], _, _ => rfl
  | (none, wt) :: rest, _, done => by cases done
  | (some e, wt) :: rest, buckets, done => by
    rw [bucketToken] at done
    split at done
    next => exact congrArg (· + 1) (bucketToken_length done)
    next => cases done

theorem length_tokenMajor {start : TokenBuckets Float} :
    ∀ {tokens : Nat} {filled : TokenBuckets Float},
      bucketTokens arith NE NU nTok logh start tokens = some filled →
      (tokenMajor arith NE NU logh tokens).length = tokens * NU
  | 0, _, _ => (Nat.zero_mul NU).symm
  | tokens + 1, filled, done => by
    rw [bucketTokens] at done
    obtain ⟨before, reached, last⟩ := Option.bind_eq_some_iff.mp done
    rw [tokenMajor_succ, List.length_append, length_tokenMajor reached, tokenPairs_eq,
      bucketToken_length last, MoeArith.length_moeTopkHost, Nat.succ_mul]

/-- The loop completes when every token's choice is of experts. -/
theorem bucketToken_isSome {t : Nat} :
    ∀ {entries : List (Option Nat × Float)} (buckets : TokenBuckets Float),
      (∀ entry ∈ entries, ∃ e < NE, entry.1 = some e) →
      (bucketToken NE nTok t entries buckets).isSome = true
  | [], _, _ => rfl
  | (id, wt) :: rest, buckets, chosen => by
    obtain ⟨e, inside, same⟩ := chosen (id, wt) List.mem_cons_self
    have tail := fun entry member => chosen entry (List.mem_cons_of_mem _ member)
    obtain rfl : id = some e := same
    rw [bucketToken, if_pos inside]
    exact bucketToken_isSome _ tail

theorem bucketTokens_isSome {start : TokenBuckets Float} :
    ∀ {tokens : Nat}, (∀ t < tokens, ∀ entry ∈ arith.moeTopkHost (logitRow NE logh t) NU,
      ∃ e < NE, entry.1 = some e) →
      (bucketTokens arith NE NU nTok logh start tokens).isSome = true
  | 0, _ => rfl
  | tokens + 1, chosen => by
    have before : (bucketTokens arith NE NU nTok logh start tokens).isSome = true :=
      bucketTokens_isSome fun t inside => chosen t (by omega)
    obtain ⟨reached, known⟩ := Option.isSome_iff_exists.mp before
    rw [bucketTokens, known, Option.bind_some]
    exact bucketToken_isSome reached (chosen tokens (Nat.lt_succ_self tokens))

end Tokens

/-! ## The packed layout -/

section Packing

variable {arith : MoeArith Float Double} {nTok : Nat} {buckets : TokenBuckets Float}
  {dsc : Nat → Float} {start : PackedBuckets Float}

theorem copyTo_inside {Value : Type} {target source : Nat → Value} {off cnt i : Nat}
    (inside : i < cnt) : copyTo target off cnt source (off + i) = source i := by
  rw [copyTo, if_pos (by omega), Nat.add_sub_cancel_left]

theorem copyTo_before {Value : Type} {target source : Nat → Value} {off cnt place : Nat}
    (before : place < off) : copyTo target off cnt source place = target place :=
  if_neg (by omega)

theorem packBuckets_off (e : Nat) :
    (packBuckets arith nTok buckets dsc start e).off = offset buckets.n e := by
  induction e with
  | zero => rfl
  | succ e inductionHypothesis =>
      rw [packBuckets, offset]
      simp only [inductionHypothesis]

theorem packBuckets_boff {e : Nat} :
    ∀ {experts : Nat}, e < experts →
      (packBuckets arith nTok buckets dsc start experts).boff e = offset buckets.n e
  | experts + 1, below => by
    simp only [packBuckets]
    by_cases last : e = experts
    · subst last
      rw [Function.update_self, packBuckets_off]
    · rw [Function.update_of_ne last]
      exact packBuckets_boff (by omega)

/-- What is packed for an expert stays when the later ones are. -/
theorem packBuckets_eq {e i : Nat} (inside : i < buckets.n e) :
    ∀ {experts : Nat}, e < experts →
      let packed := packBuckets arith nTok buckets dsc start experts
      packed.brows (offset buckets.n e + i) = buckets.bkt (e * nTok + i) ∧
        packed.bw (offset buckets.n e + i) = arith.mul (buckets.bktw (e * nTok + i)) (dsc e)
  | experts + 1, below => by
    simp only [packBuckets, packBuckets_off]
    by_cases last : e = experts
    · subst last
      exact ⟨copyTo_inside inside, copyTo_inside inside⟩
    · have next := @offset_mono buckets.n (e + 1) experts (by omega)
      rw [offset] at next
      rw [copyTo_before (by omega), copyTo_before (by omega)]
      exact packBuckets_eq inside (by omega)

/-- Both layouts give the expert loop the same rows. -/
theorem expertLoopPacked_eq (NE : Nat) :
    expertLoopPacked NE buckets (packBuckets arith nTok buckets dsc start NE) =
      expertLoopStriped arith NE nTok buckets dsc := by
  rw [expertLoopPacked, expertLoopStriped]
  apply List.flatMap_congr
  intro e member
  apply List.map_congr_left
  intro i inside
  have below := List.mem_range.mp member
  obtain ⟨rows, weights⟩ := @packBuckets_eq _ _ arith nTok buckets dsc start e i
    (List.mem_range.mp inside) NE below
  rw [packBuckets_boff below, rows, weights]

end Packing

/-! ## The whole block -/

/-- What the expert loop does with a pair. -/
def scaled (arith : MoeArith Float Double) (dsc : Nat → Float) (pair : Nat × Nat × Float) :
    Nat × Nat × Float :=
  (pair.2.1, pair.1, arith.mul pair.2.2 (dsc pair.1))

/-- The stripes hold every chosen pair once, in ascending order of the tokens and within their
places; the packed layout is a partition that holds the same. -/
structure BucketsHold (arith : MoeArith Float Double) (NE NU nTok : Nat) (logh : Nat → Float)
    (dsc : Nat → Float) (filled : TokenBuckets Float) (packed : PackedBuckets Float) : Prop where
  bounded : ∀ e, filled.n e ≤ nTok
  ascending : ∀ e, ((List.range (filled.n e)).map fun i => filled.bkt (e * nTok + i)).Pairwise (· < ·)
  once : ∀ t < nTok, ∀ e wt,
    (some e, wt) ∈ arith.moeTopkHost (logitRow NE logh t) NU →
      e < NE ∧ ∃ i < filled.n e, filled.bkt (e * nTok + i) = t ∧ filled.bktw (e * nTok + i) = wt ∧
        ∀ j < filled.n e, filled.bkt (e * nTok + j) = t → j = i
  only : ∀ e, ∀ i < filled.n e, filled.bkt (e * nTok + i) < nTok ∧
    (some e, filled.bktw (e * nTok + i)) ∈
      arith.moeTopkHost (logitRow NE logh (filled.bkt (e * nTok + i))) NU
  size : packed.off = nTok * NU
  partition : ∀ place < nTok * NU,
    ∃! e, e < NE ∧ packed.boff e ≤ place ∧ place < packed.boff e + filled.n e
  same : ∀ e < NE, ∀ i < filled.n e,
    packed.brows (packed.boff e + i) = filled.bkt (e * nTok + i) ∧
      packed.bw (packed.boff e + i) = arith.mul (filled.bktw (e * nTok + i)) (dsc e)
  striped : (expertLoopStriped arith NE nTok filled dsc).Perm
    ((tokenMajor arith NE NU logh nTok).map (scaled arith dsc))
  packed : (expertLoopPacked NE filled packed).Perm
    ((tokenMajor arith NE NU logh nTok).map (scaled arith dsc))

section Hold

variable {arith : MoeArith Float Double} {NE NU nTok : Nat} {logh : Nat → Float}

theorem mem_tokenMajor {t e tokens : Nat} {wt : Float} :
    (e, t, wt) ∈ tokenMajor arith NE NU logh tokens ↔
      t < tokens ∧ (some e, wt) ∈ arith.moeTopkHost (logitRow NE logh t) NU := by
  rw [tokenMajor, List.mem_flatMap]
  constructor
  · rintro ⟨token, inside, member⟩
    obtain ⟨⟨id, w⟩, chosen, same⟩ := List.mem_filterMap.mp member
    obtain ⟨expert, known, pair⟩ := Option.map_eq_some_iff.mp same
    simp only [Prod.mk.injEq] at pair
    obtain ⟨rfl, rfl, rfl⟩ := pair
    obtain rfl : id = some expert := known
    exact ⟨List.mem_range.mp inside, chosen⟩
  · rintro ⟨inside, chosen⟩
    exact ⟨t, List.mem_range.mpr inside, List.mem_filterMap.mpr ⟨_, chosen, rfl⟩⟩

theorem expertLoopStriped_perm {filled : TokenBuckets Float} (dsc : Nat → Float)
    (striped : Striped nTok (tokenMajor arith NE NU logh nTok) filled.n filled.cells)
    (keys : ∀ pair ∈ tokenMajor arith NE NU logh nTok, pair.1 < NE) :
    (expertLoopStriped arith NE nTok filled dsc).Perm
      ((tokenMajor arith NE NU logh nTok).map (scaled arith dsc)) := by
  have rows : expertLoopStriped arith NE nTok filled dsc =
      ((List.range NE).flatMap fun e =>
        (under (tokenMajor arith NE NU logh nTok) e).map (Prod.mk e)).map (scaled arith dsc) := by
    rw [expertLoopStriped, List.map_flatMap]
    apply List.flatMap_congr
    intro e _
    rw [← striped.read e, List.map_map, List.map_map]
    rfl
  rw [rows]
  exact (flatMap_under_perm keys).map _

theorem bucketsHold {start : TokenBuckets Float} {filled : TokenBuckets Float}
    (done : bucketTokens arith NE NU nTok logh start nTok = some filled) (dsc : Nat → Float)
    (packed : PackedBuckets Float) :
    BucketsHold arith NE NU nTok logh dsc filled
      (packBuckets arith nTok filled dsc packed NE) := by
  obtain ⟨striped, keys⟩ := bucketTokens_striped (Nat.le_refl nTok) done
  have bucket := fun e => @under_tokenMajor _ _ arith NE NU logh e nTok
  have read := striped.read
  have tokens : ∀ e, (List.range (filled.n e)).map (fun i => filled.bkt (e * nTok + i)) =
      (under (tokenMajor arith NE NU logh nTok) e).map Prod.fst := by
    intro e
    rw [← read e, List.map_map]
    rfl
  have held : ∀ e i, i < filled.n e →
      (filled.bkt (e * nTok + i), filled.bktw (e * nTok + i)) ∈
        under (tokenMajor arith NE NU logh nTok) e := by
    intro e i inside
    rw [← read e]
    exact List.mem_map.mpr ⟨i, List.mem_range.mpr inside, rfl⟩
  have total : offset filled.n NE = nTok * NU := by
    rw [offset_eq_length striped.count, (flatMap_under_perm keys).length_eq, length_tokenMajor done]
  have loop := expertLoopStriped_perm dsc striped keys
  constructor
  · intro e
    rw [striped.count]
    exact (bucket e).2.2
  · intro e
    rw [tokens]
    exact (bucket e).1
  · intro t inside e wt chosen
    have pair := mem_tokenMajor.mpr ⟨inside, chosen⟩
    obtain ⟨i, place, value⟩ := List.mem_map.mp (read e ▸ mem_under.mpr pair :
      (t, wt) ∈ (List.range (filled.n e)).map fun i => filled.cells (e * nTok + i))
    obtain ⟨token, weight⟩ := Prod.mk.injEq .. ▸ value
    refine ⟨keys _ pair, i, List.mem_range.mp place, token, weight, fun j later same => ?_⟩
    have ascending := (bucket e).1
    rw [← tokens] at ascending
    have distinct := ascending.imp fun less => Nat.ne_of_lt less
    have injective := List.inj_on_of_nodup_map distinct
    exact injective (List.mem_range.mpr later) place (same.trans token.symm)
  · intro e i inside
    have present := mem_under.mp (held e i inside)
    exact mem_tokenMajor.mp present
  · rw [packBuckets_off, total]
  · intro place below
    obtain ⟨e, ⟨inside, bounds⟩, unique⟩ := offset_partition (total ▸ below)
    refine ⟨e, ⟨inside, ?_⟩, fun other found => ?_⟩
    · rw [packBuckets_boff inside]
      exact bounds
    · obtain ⟨otherInside, otherBounds⟩ := found
      rw [packBuckets_boff otherInside] at otherBounds
      exact unique other ⟨otherInside, otherBounds⟩
  · intro e inside i within
    rw [packBuckets_boff inside]
    exact packBuckets_eq within inside
  · exact loop
  · rw [expertLoopPacked_eq]
    exact loop

/-- Probabilities that are not negative leave no entry of the array unused. -/
theorem moeTopkHost_chosen [LinearOrder Float]
    (exact : ∀ first second, arith.lt first second = decide (first < second))
    (below : arith.negOne < arith.zero) (few : NU ≤ NE) {t : Nat} {f : Float → Float}
    (softmax : arith.softmax (logitRow NE logh t) = (logitRow NE logh t).map f)
    (range : ∀ a ∈ logitRow NE logh t, arith.zero ≤ f a) :
    ∀ entry ∈ arith.moeTopkHost (logitRow NE logh t) NU, ∃ e < NE, entry.1 = some e := by
  have length : ((logitRow NE logh t).map f).length = NE := by
    rw [List.length_map, logitRow, List.length_map, List.length_range]
  have probabilities : ∀ p ∈ (logitRow NE logh t).map f, arith.zero ≤ p := by
    intro p member
    obtain ⟨a, present, rfl⟩ := List.mem_map.mp member
    exact range a present
  have room : NU ≤ ((logitRow NE logh t).map f).length := few.trans_eq length.symm
  have chosen := chosen_eq exact room below probabilities
  intro entry member
  simp only [MoeArith.moeTopkHost, softmax] at member
  rw [chosen, length] at member
  obtain ⟨divided, present, rfl⟩ := List.mem_map.mp member
  obtain ⟨e, ranked, rfl⟩ := List.mem_map.mp present
  exact ⟨e, mem_ranking.mp (List.mem_of_mem_take ranked), rfl⟩

end Hold

/-- A bucketing loop that completes loses and duplicates nothing, in either layout, and without a
NaN among the probabilities it completes. -/
theorem bucketTokens_exact [LinearOrder Float] (arith : MoeArith Float Double) (NE NU nTok : Nat)
    (logh : Nat → Float) (start : TokenBuckets Float) (dsc : Nat → Float)
    (packed : PackedBuckets Float) :
    (∀ filled, bucketTokens arith NE NU nTok logh start nTok = some filled →
      BucketsHold arith NE NU nTok logh dsc filled
        (packBuckets arith nTok filled dsc packed NE)) ∧
    ((∀ first second, arith.lt first second = decide (first < second)) →
      arith.negOne < arith.zero → NU ≤ NE →
      (∀ t < nTok, ∃ f : Float → Float,
        arith.softmax (logitRow NE logh t) = (logitRow NE logh t).map f ∧
          ∀ a ∈ logitRow NE logh t, arith.zero ≤ f a) →
      ∃ filled, bucketTokens arith NE NU nTok logh start nTok = some filled) := by
  constructor
  · intro filled done
    exact bucketsHold done dsc packed
  · intro exact below few probabilities
    apply Option.isSome_iff_exists.mp
    apply bucketTokens_isSome
    intro t inside
    obtain ⟨f, softmax, range⟩ := probabilities t inside
    exact moeTopkHost_chosen exact below few softmax range

theorem bucketTokens_exact_even :
    ∃ filled, bucketTokens evenArith 2 1 2 (fun _ => 3) ⟨fun _ => 0, fun _ => 9, fun _ => 9⟩ 2 =
        some filled ∧
      BucketsHold evenArith 2 1 2 (fun _ => 3) (fun _ => 1) filled
        (packBuckets evenArith 2 filled (fun _ => 1) ⟨0, fun _ => 0, fun _ => 0, fun _ => 0⟩ 2) := by
  obtain ⟨holds, completes⟩ := bucketTokens_exact evenArith 2 1 2 (fun _ => 3)
    ⟨fun _ => 0, fun _ => 9, fun _ => 9⟩ (fun _ => 1) ⟨0, fun _ => 0, fun _ => 0, fun _ => 0⟩
  have softmax : evenArith.softmax [3, 3] = [3, 3].map fun _ => 1 / 2 := by decide +kernel
  have range : evenArith.zero ≤ 1 / 2 := by decide +kernel
  obtain ⟨filled, done⟩ := completes (fun _ _ => rfl) (by decide +kernel) (by decide)
    fun _ _ => ⟨fun _ => 1 / 2, softmax, fun _ _ => range⟩
  exact ⟨filled, done, holds filled done⟩

end KairosEngine.Cuda
