import KairosEngine.Cuda.PrefillAttention

/-!
# The prefill attention as two GEMMs

`g4_pfgemm` sizes its scratch once, from the longest key range a block of `QB` queries can have,
and then computes the range of each block.  `size_t` products wrap.
-/

namespace KairosEngine.Cuda

open KairosEngine.Library

/-- The arguments of `g4_pfgemm` that decide about sizes. -/
structure PfArgs where
  pos0 : Nat
  qd : Nat
  kvd : Nat
  hd : Nat
  grp : Nat
  win : Int
  n : Nat
  nh : Nat
  /-- `sizeof(KV) == 2`. -/
  half : Bool

/-- A `size_t`. -/
def sizeT (exact : Nat) : Nat := exact % 2 ^ 64

/-- The scratch that outlives a call: capacities in elements, and whether the pairs are
allocated. -/
structure PfScratch where
  cq : Nat
  ck : Nat
  kv : Bool
  cs : Nat
  sp : Bool

/-- The answers of `cudaMalloc`. -/
structure PfMallocs where
  q : Bool
  kv : Bool
  sp : Bool

namespace PfArgs

variable (args : PfArgs)

def nkvh : Nat := if 0 < args.grp then args.nh / args.grp else 0

/-- The check whose failure is reported as "head layout". -/
def headLayout : Bool :=
  decide (0 < args.nkvh ∧ args.nh % args.grp = 0 ∧ args.nkvh * args.hd = args.kvd ∧
    args.nh * args.hd = args.qd)

def ctxHi : Nat := args.pos0 + args.n

/-- The keys that a block of `QB` queries is taken to need at most. -/
def nkMax (QB : Nat) : Nat :=
  if 0 ≤ args.win then min (QB + args.win.toNat) args.ctxHi else args.ctxHi

/-- `SCAP`. -/
def scap : Nat := 64 * 2 ^ 20

/-- The loop that halves `QB`. -/
def selectQB (QB : Nat) (positive : 0 < QB) : { QB : Nat // 0 < QB } :=
  if fits : sizeT (args.grp * QB * args.nkMax QB * 6) ≤ scap ∨ QB ≤ 16 then
    ⟨QB, positive⟩
  else
    selectQB (QB / 2) (by omega)
termination_by QB

theorem selectQB_of_fits {QB : Nat} (positive : 0 < QB)
    (fits : sizeT (args.grp * QB * args.nkMax QB * 6) ≤ scap) :
    args.selectQB QB positive = ⟨QB, positive⟩ := by
  rw [selectQB, dif_pos (Or.inl fits)]

def needQ : Nat := sizeT (args.n * args.qd)

def needKv (QB : Nat) : Nat := if args.half then 0 else sizeT (args.nkMax QB * args.kvd)

def needS (QB : Nat) : Nat := sizeT (args.grp * QB * args.nkMax QB)

end PfArgs

/-! ## The scratch -/

/-- `grow`: the new capacity, and whether there is room. -/
def pfGrow (cap need : Nat) (malloc : Bool) : Nat × Bool :=
  if need ≤ cap then (cap, true) else if malloc then (need, true) else (0, false)

/-- `grow2`, for a pair that is allocated or is not. -/
def pfGrow2 (cap : Nat) (present : Bool) (need : Nat) (malloc : Bool) : Nat × Bool :=
  if need ≤ cap ∧ present = true then (cap, true) else if malloc then (need, true) else (0, false)

def PfScratch.growQ (scratch : PfScratch) (need : Nat) (malloc : Bool) : PfScratch × Bool :=
  let grown := pfGrow scratch.cq need malloc
  ({ scratch with cq := grown.1 }, grown.2)

/-- Nothing is asked for where the cache is read as it is. -/
def PfScratch.growKv (scratch : PfScratch) (need : Nat) (malloc : Bool) : PfScratch × Bool :=
  if need = 0 then
    (scratch, true)
  else
    let grown := pfGrow2 scratch.ck scratch.kv need malloc
    ({ scratch with ck := grown.1, kv := grown.2 }, grown.2)

def PfScratch.growS (scratch : PfScratch) (need : Nat) (malloc : Bool) : PfScratch × Bool :=
  let grown := pfGrow2 scratch.cs scratch.sp need malloc
  ({ scratch with cs := grown.1, sp := grown.2 }, grown.2)

/-- The part of `g4_pfgemm` before its first launch: the block size, or why it declines. -/
def pfPrepare (args : PfArgs) (mallocs : PfMallocs) (scratch : PfScratch) :
    PfScratch × Except String { QB : Nat // 0 < QB } :=
  let QB := args.selectQB 256 (by decide)
  if args.headLayout = false then
    (scratch, .error "head layout")
  else
    let q := scratch.growQ args.needQ mallocs.q
    if q.2 = false then
      (q.1, .error "Q scratch")
    else
      let kv := q.1.growKv (args.needKv QB) mallocs.kv
      if kv.2 = false then
        (kv.1, .error "K/V scratch")
      else
        let s := kv.1.growS (args.needS QB) mallocs.sp
        if s.2 = false then (s.1, .error "S/P scratch") else (s.1, .ok QB)

/-! ## The blocks -/

/-- A block of queries: its first and its number, its key range and the length of that. -/
structure PfBlock where
  q0 : Nat
  qb : Nat
  kvLo : Nat
  tHi : Nat
  nk : Nat

def pfBlock (args : PfArgs) (round : Nat × Nat) : PfBlock :=
  let kvLo := attnStart args.win (args.pos0 + round.1)
  let tHi := args.pos0 + round.1 + round.2
  { q0 := round.1, qb := round.2, kvLo, tHi, nk := tHi - kvLo }

/-- `for (q0 = 0; q0 < n; q0 += QB)`. -/
def pfBlocks (args : PfArgs) (QB : { QB : Nat // 0 < QB }) : List PfBlock :=
  (strides QB.2 args.n 0).map (pfBlock args)

/-- The columns that `k_pf_softmax` keeps of the row `r`. -/
def pfColumns (args : PfArgs) (block : PfBlock) (r : Nat) : List Nat :=
  let t := args.pos0 + block.q0 + r
  let c0 : Int := attnStart args.win t - block.kvLo
  let c1 : Int := t - block.kvLo
  (List.range block.nk).filter fun c => decide (c0 ≤ c ∧ c ≤ c1)

/-- The positions they stand for. -/
def pfPositions (args : PfArgs) (block : PfBlock) (r : Nat) : List Nat :=
  (pfColumns args block r).map (block.kvLo + ·)

/-! ## The window -/

section Window

variable {win : Int} {t later : Nat}

theorem attnStart_le_succ (win : Int) (t : Nat) : attnStart win t ≤ t + 1 := by
  unfold attnStart
  split
  next room => omega
  next => exact Nat.zero_le _

theorem attnStart_mono (behind : t ≤ later) : attnStart win t ≤ attnStart win later := by
  unfold attnStart
  split
  next room =>
    rw [if_pos (by omega)]
    omega
  next => exact Nat.zero_le _

/-- A negative window is no window. -/
theorem attnStart_le_iff {s : Nat} : attnStart win t ≤ s ↔ (0 ≤ win → (t : Int) - win + 1 ≤ s) := by
  unfold attnStart
  split
  next room =>
    rw [Int.toNat_le]
    exact ⟨fun le _ => le, fun le => le room.1⟩
  next none =>
    refine ⟨fun _ windowed => ?_, fun _ => Nat.zero_le _⟩
    have nonpositive : (t : Int) - win + 1 ≤ 0 := Int.not_lt.mp fun room => none ⟨windowed, room⟩
    exact Int.le_trans nonpositive (Int.natCast_nonneg s)

theorem mem_window {s : Nat} :
    s ∈ List.range' (attnStart win t) (t + 1 - attnStart win t) ↔
      (0 ≤ win → (t : Int) - win + 1 ≤ s) ∧ s ≤ t := by
  have start := attnStart_le_succ win t
  rw [List.mem_range'_1, attnStart_le_iff, Nat.add_sub_cancel' start, Nat.lt_succ_iff]

/-- Of a range around another, what lies in the other. -/
theorem filter_range' {start count lo last : Nat} (low : start ≤ lo) (proper : lo ≤ last + 1)
    (high : last < start + count) :
    (List.range' start count).filter (fun s => decide (lo ≤ s ∧ s ≤ last)) =
      List.range' lo (last + 1 - lo) := by
  have parts : List.range' start count = List.range' start (lo - start) ++
      (List.range' lo (last + 1 - lo) ++ List.range' (last + 1) (start + count - (last + 1))) := by
    have tail := @List.range'_append_1 lo (last + 1 - lo) (start + count - (last + 1))
    have all := @List.range'_append_1 start (lo - start) (start + count - lo)
    rw [Nat.add_sub_cancel' proper] at tail
    rw [Nat.add_sub_cancel' low] at all
    rw [tail, show last + 1 - lo + (start + count - (last + 1)) = start + count - lo by omega, all]
    congr 1
    omega
  rw [parts, List.filter_append, List.filter_append, List.filter_eq_nil_iff.mpr,
    List.filter_eq_self.mpr, List.filter_eq_nil_iff.mpr, List.nil_append, List.append_nil]
  · intro s member
    rw [List.mem_range'_1] at member
    simp only [decide_eq_true_eq]
    omega
  · intro s member
    rw [List.mem_range'_1] at member
    simp only [decide_eq_true_eq]
    omega
  · intro s member
    rw [List.mem_range'_1] at member
    simp only [decide_eq_true_eq]
    omega

end Window

/-! ## A block -/

section Blocks

variable {args : PfArgs} {QB : { QB : Nat // 0 < QB }} {block : PfBlock}

/-- What a block of queries is, and where its keys lie. -/
structure PfSpan (args : PfArgs) (QB : Nat) (block : PfBlock) : Prop where
  kvLo_eq : block.kvLo = attnStart args.win (args.pos0 + block.q0)
  tHi_eq : block.tHi = args.pos0 + block.q0 + block.qb
  nk_eq : block.nk = block.tHi - block.kvLo
  nonempty : 0 < block.qb
  qb_le : block.qb ≤ QB
  inside : block.q0 + block.qb ≤ args.n

theorem mem_pfBlocks (member : block ∈ pfBlocks args QB) : PfSpan args QB block := by
  obtain ⟨round, inRounds, rfl⟩ := List.mem_map.mp member
  have within := mem_strides inRounds
  exact ⟨rfl, rfl, rfl, within.nonempty, within.le_step, within.le_last⟩

theorem PfSpan.kvLo_le (span : PfSpan args QB block) : block.kvLo ≤ block.tHi := by
  have start := attnStart_le_succ args.win (args.pos0 + block.q0)
  rw [span.kvLo_eq, span.tHi_eq]
  exact Nat.le_trans start (Nat.add_le_add_left span.nonempty _)

theorem PfSpan.tHi_le (span : PfSpan args QB block) : block.tHi ≤ args.ctxHi := by
  rw [span.tHi_eq, Nat.add_assoc]
  exact Nat.add_le_add_left span.inside _

/-- The range of a block is no longer than the one the scratch was sized for. -/
theorem PfSpan.nk_le (span : PfSpan args QB block) : block.nk ≤ args.nkMax QB := by
  have range : block.nk ≤ args.ctxHi := by
    rw [span.nk_eq]
    exact Nat.le_trans (Nat.sub_le ..) span.tHi_le
  unfold PfArgs.nkMax
  split
  next windowed =>
    refine Nat.le_min.mpr ⟨?_, range⟩
    have start := (@attnStart_le_iff args.win (args.pos0 + block.q0) block.kvLo).mp
      (Nat.le_of_eq span.kvLo_eq.symm) windowed
    have rows := span.qb_le
    have size := span.nk_eq
    have last := span.tHi_eq
    omega
  next => exact range

/-- The columns of a row stand for the positions of its window. -/
theorem PfSpan.positions_eq (span : PfSpan args QB block) {r : Nat} (row : r < block.qb) :
    pfPositions args block r = List.range' (attnStart args.win (args.pos0 + block.q0 + r))
      (args.pos0 + block.q0 + r + 1 - attnStart args.win (args.pos0 + block.q0 + r)) := by
  have low : block.kvLo ≤ attnStart args.win (args.pos0 + block.q0 + r) := by
    rw [span.kvLo_eq]
    exact attnStart_mono (Nat.le_add_right ..)
  have bounded := span.kvLo_le
  have size := span.nk_eq
  have last := span.tHi_eq
  rw [← @filter_range' block.kvLo block.nk _ (args.pos0 + block.q0 + r) low
    (attnStart_le_succ ..) (by omega), pfPositions, pfColumns, List.range'_eq_map_range,
    List.filter_map]
  congr 1
  apply List.filter_congr
  intro c _
  simp only [Function.comp_apply, decide_eq_decide]
  omega

end Blocks

/-! ## The whole call -/

section Call

variable {args : PfArgs} {mallocs : PfMallocs} {scratch after : PfScratch}
variable {QB : { QB : Nat // 0 < QB }}

theorem le_pfGrow {cap need : Nat} {malloc : Bool} (grown : (pfGrow cap need malloc).2 = true) :
    need ≤ (pfGrow cap need malloc).1 := by
  unfold pfGrow at grown ⊢
  split at grown
  next room => rwa [if_pos room]
  next small =>
    split at grown
    next allowed => rw [if_neg small, if_pos allowed]
    next => cases grown

theorem le_pfGrow2 {cap need : Nat} {present malloc : Bool}
    (grown : (pfGrow2 cap present need malloc).2 = true) :
    need ≤ (pfGrow2 cap present need malloc).1 := by
  unfold pfGrow2 at grown ⊢
  split at grown
  next room =>
    rw [if_pos room]
    exact room.1
  next small =>
    split at grown
    next allowed => rw [if_neg small, if_pos allowed]
    next => cases grown

/-- Where the call does not decline, every buffer has what was asked for. -/
structure PfReady (args : PfArgs) (QB : Nat) (scratch : PfScratch) : Prop where
  q : args.needQ ≤ scratch.cq
  kv : args.needKv QB ≤ scratch.ck
  s : args.needS QB ≤ scratch.cs

theorem le_growKv {need : Nat} {malloc : Bool} (grown : (scratch.growKv need malloc).2 = true) :
    need ≤ (scratch.growKv need malloc).1.ck := by
  unfold PfScratch.growKv at grown ⊢
  split
  next none =>
    rw [none]
    exact Nat.zero_le _
  next some =>
    rw [if_neg some] at grown
    exact le_pfGrow2 grown

theorem growKv_cq (scratch : PfScratch) (need : Nat) (malloc : Bool) :
    (scratch.growKv need malloc).1.cq = scratch.cq := by
  unfold PfScratch.growKv
  split
  next => rfl
  next => rfl

theorem pfPrepare_ready (prepared : pfPrepare args mallocs scratch = (after, .ok QB)) :
    PfReady args QB after := by
  simp only [pfPrepare] at prepared
  split at prepared
  next => cases (Prod.mk.inj prepared).2
  next =>
    split at prepared
    next => cases (Prod.mk.inj prepared).2
    next q =>
      split at prepared
      next => cases (Prod.mk.inj prepared).2
      next kv =>
        split at prepared
        next => cases (Prod.mk.inj prepared).2
        next s =>
          obtain ⟨rfl, answer⟩ := Prod.mk.inj prepared
          obtain rfl := Except.ok.inj answer
          refine ⟨?_, ?_, ?_⟩
          · rw [PfScratch.growS, growKv_cq]
            exact le_pfGrow (Bool.eq_true_of_not_eq_false q)
          · exact le_growKv (Bool.eq_true_of_not_eq_false kv)
          · exact le_pfGrow2 (Bool.eq_true_of_not_eq_false s)

/-- A block stays inside the scratch, and each of its rows keeps the positions that the tiled
kernel visits. -/
structure PfWithin (args : PfArgs) (QB : Nat) (scratch : PfScratch) (block : PfBlock) : Prop where
  kvLo_le : block.kvLo ≤ block.tHi
  tHi_le : block.tHi ≤ args.pos0 + args.n
  nk_eq : block.nk = block.tHi - block.kvLo
  nk_le : block.nk ≤ args.nkMax QB
  kv_fits : args.half = false → args.nkMax QB * args.kvd < 2 ^ 64 →
    block.nk * args.kvd ≤ scratch.ck
  s_fits : args.grp * QB * args.nkMax QB < 2 ^ 64 →
    args.grp * block.qb * block.nk ≤ scratch.cs
  kept : ∀ r < block.qb, ∀ s, s ∈ pfPositions args block r ↔
    (0 ≤ args.win → ((args.pos0 + block.q0 + r : Nat) : Int) - args.win + 1 ≤ s) ∧
      s ≤ args.pos0 + block.q0 + r
  visited : ∀ r < block.qb, ∀ (attn : AttnArgs Unit) (b TILE : Nat) (positive : 0 < TILE),
    attn.pos0 = args.pos0 → attn.win = args.win → b / attn.nHeads = block.q0 + r →
      (attn.tiles b positive).flatMap (fun tile => List.range' tile.1 tile.2) =
        pfPositions args block r

/-- Where `g4_pfgemm` does not decline, its blocks partition the queries and each stays inside
the scratch, as far as the sizes do not wrap. -/
theorem g4Pfgemm_within (args : PfArgs) (mallocs : PfMallocs) (scratch after : PfScratch)
    (QB : { QB : Nat // 0 < QB }) (prepared : pfPrepare args mallocs scratch = (after, .ok QB)) :
    (pfBlocks args QB).flatMap (fun block => List.range' block.q0 block.qb) = List.range args.n ∧
      ∀ block ∈ pfBlocks args QB, PfWithin args QB after block := by
  have ready := pfPrepare_ready prepared
  constructor
  · rw [pfBlocks, List.flatMap_map, List.range_eq_range']
    exact strides_flatMap
  · intro block member
    have span := mem_pfBlocks member
    refine ⟨span.kvLo_le, span.tHi_le, span.nk_eq, span.nk_le, ?_, ?_, ?_, ?_⟩
    · intro wide exact_size
      have asked := ready.kv
      rw [PfArgs.needKv, wide, if_neg Bool.false_ne_true, sizeT, Nat.mod_eq_of_lt exact_size]
        at asked
      exact Nat.le_trans (Nat.mul_le_mul_right _ span.nk_le) asked
    · intro exact_size
      have asked := ready.s
      rw [PfArgs.needS, sizeT, Nat.mod_eq_of_lt exact_size] at asked
      have rows := Nat.mul_le_mul_left args.grp span.qb_le
      exact Nat.le_trans (Nat.mul_le_mul rows span.nk_le) asked
    · intro r row s
      rw [span.positions_eq row]
      exact mem_window
    · intro r row attn b TILE positive pos0 win query
      rw [span.positions_eq row, AttnArgs.tiles_flatMap, AttnArgs.s0, AttnArgs.position, pos0, win,
        query, ← Nat.add_assoc]

/-- Five queries behind three positions, in a window of two. -/
def windowedArgs : PfArgs where
  pos0 := 3
  qd := 2
  kvd := 1
  hd := 1
  grp := 2
  win := 2
  n := 5
  nh := 2
  half := false

theorem g4Pfgemm_within_windowed :
    let after : PfScratch := { cq := 10, ck := 8, kv := true, cs := 4096, sp := true }
    let QB : { QB : Nat // 0 < QB } := ⟨256, by decide⟩
    (pfBlocks windowedArgs QB).flatMap (fun block => List.range' block.q0 block.qb) =
        List.range 5 ∧
      ∀ block ∈ pfBlocks windowedArgs QB, PfWithin windowedArgs QB after block := by
  apply g4Pfgemm_within windowedArgs { q := true, kv := true, sp := true }
    { cq := 0, ck := 0, kv := false, cs := 0, sp := false }
  rw [pfPrepare, windowedArgs.selectQB_of_fits _ (by decide)]
  rfl

/-- One query of very many heads that share their keys, behind very many positions: the size of
S and P is `2 ^ 64 + 2 ^ 22`. -/
def wrappingArgs : PfArgs where
  pos0 := 268419072
  qd := 268451840
  kvd := 1
  hd := 1
  grp := 268451840
  win := -1
  n := 1
  nh := 268451840
  half := true

/-- The scratch is too small there, and the query, without a window, keeps the first key. -/
theorem g4Pfgemm_wraps :
    ∃ after QB, ∃ block ∈ pfBlocks wrappingArgs QB,
      pfPrepare wrappingArgs { q := true, kv := true, sp := true }
        { cq := 0, ck := 0, kv := false, cs := 0, sp := false } = (after, .ok QB) ∧
      after.cs < wrappingArgs.grp * block.qb * block.nk ∧
      ¬ ∀ s, s ∈ pfPositions wrappingArgs block 0 ↔
        max 0 ((wrappingArgs.pos0 + block.q0 + 0 : Nat) - wrappingArgs.win + 1) ≤ (s : Int) ∧
          s ≤ wrappingArgs.pos0 + block.q0 + 0 := by
  have only : pfBlock wrappingArgs (0, 1) ∈ pfBlocks wrappingArgs ⟨256, by decide⟩ := by
    rw [pfBlocks, strides]
    exact List.mem_cons_self
  refine ⟨{ cq := 268451840, ck := 0, kv := false, cs := 4194304, sp := true }, ⟨256, by decide⟩,
    pfBlock wrappingArgs (0, 1), only, ?_, by decide, ?_⟩
  · rw [pfPrepare, wrappingArgs.selectQB_of_fits _ (by decide)]
    rfl
  · intro always
    have kept : 0 ∈ pfPositions wrappingArgs (pfBlock wrappingArgs (0, 1)) 0 := by
      rw [(mem_pfBlocks only).positions_eq (by decide), mem_window]
      exact ⟨fun windowed => absurd windowed (by decide), Nat.zero_le _⟩
    have late := ((always 0).mp kept).1
    revert late
    decide

end Call

end KairosEngine.Cuda
