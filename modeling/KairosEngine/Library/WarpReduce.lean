import Mathlib.Algebra.BigOperators.Group.List.Basic
import Mathlib.Algebra.GroupWithZero.Nat
import Mathlib.Data.List.Perm.Basic
import Mathlib.Data.List.Nodup
import Mathlib.Order.Lattice
import KairosEngine.Library.Tiling

/-!
# Reductions across the lanes of a warp

Lanes that exchange their values at halving distances combine them in a tree.  The tree is the same
for `__shfl_down_sync`, for `__shfl_xor_sync` and for a loop over an array, as long as the operation
commutes; where it is a sum, the tree is the sum.
-/

namespace KairosEngine.Library

universe u

section Tree

variable {Value : Type u} (op : Value → Value → Value)

/-- `v = op(v, __shfl_down_sync(v, o))`; a lane without one above gets its own value. -/
def shuffleDown (values : Nat → Value) (o : Nat) (lane : Nat) : Value :=
  op (values lane) (values (if lane + o < 32 then lane + o else lane))

/-- `v = op(v, __shfl_xor_sync(v, o))`. -/
def shuffleXor (values : Nat → Value) (o : Nat) (lane : Nat) : Value :=
  op (values lane) (values (lane ^^^ o))

/-- `for (l = 0; l < o; l++) v[l] = op(v[l + o], v[l])`. -/
def foldHalf (values : Nat → Value) (o : Nat) : Nat → Value :=
  (List.range o).foldl (fun values l => Function.update values l (op (values (l + o)) (values l)))
    values

/-- The offsets below a power of two, halving. -/
def halves : Nat → List Nat
  | 0 => []
  | k + 1 => 2 ^ k :: halves k

/-- What meets in a lane from above it. -/
def meet : List Nat → (Nat → Value) → Nat → Value
  | [], values => values
  | o :: rest, values => meet rest fun lane => op (values lane) (values (lane + o))

variable {op} {values others : Nat → Value} {lane : Nat}

theorem sum_halves (k : Nat) : (halves k).sum + 1 = 2 ^ k := by
  induction k with
  | zero => rfl
  | succ k inductionHypothesis =>
      rw [halves, List.sum_cons, Nat.pow_succ]
      omega

theorem meet_congr {offsets : List Nat}
    (same : ∀ other, lane ≤ other → other ≤ lane + offsets.sum → values other = others other) :
    meet op offsets values lane = meet op offsets others lane := by
  induction offsets generalizing values others with
  | nil => exact same lane (Nat.le_refl _) (Nat.le_add_right _ _)
  | cons o rest inductionHypothesis =>
      rw [List.sum_cons] at same
      apply inductionHypothesis
      intro other above below
      rw [same other above (by omega), same (other + o) (by omega) (by omega)]

/-- A lane far enough from the last one meets those above it. -/
theorem foldl_shuffleDown {offsets : List Nat} (inside : lane + offsets.sum < 32) :
    offsets.foldl (shuffleDown op) values lane = meet op offsets values lane := by
  induction offsets generalizing values with
  | nil => rfl
  | cons o rest inductionHypothesis =>
      rw [List.sum_cons] at inside
      rw [List.foldl_cons, inductionHypothesis (by omega), meet]
      apply meet_congr
      intro other above below
      rw [shuffleDown, if_pos (by omega)]

theorem xor_two_pow {k : Nat} (below : lane < 2 ^ k) : lane ^^^ 2 ^ k = lane + 2 ^ k := by
  have sum := Nat.two_pow_add_eq_or_of_lt below 1
  rw [Nat.mul_one] at sum
  rw [Nat.add_comm, sum]
  apply Nat.eq_of_testBit_eq
  intro bit
  rw [Nat.testBit_xor, Nat.testBit_or, Nat.testBit_two_pow]
  by_cases top : k = bit
  · subst top
    rw [Nat.testBit_lt_two_pow below]
    simp
  · simp [top]

theorem xor_sub_two_pow {k : Nat} (above : 2 ^ k ≤ lane) (below : lane < 2 ^ (k + 1)) :
    lane ^^^ 2 ^ k = lane - 2 ^ k := by
  rw [Nat.pow_succ] at below
  have low := @xor_two_pow (lane - 2 ^ k) k (by omega)
  rw [Nat.sub_add_cancel above] at low
  calc lane ^^^ 2 ^ k = lane - 2 ^ k ^^^ 2 ^ k ^^^ 2 ^ k := by rw [low]
    _ = lane - 2 ^ k := by rw [Nat.xor_assoc, Nat.xor_self, Nat.xor_zero]

/-- The first lane of a butterfly meets all others. -/
theorem foldl_shuffleXor_zero (k : Nat) :
    (halves k).foldl (shuffleXor op) values 0 = meet op (halves k) values 0 := by
  induction k generalizing values with
  | zero => rfl
  | succ k inductionHypothesis =>
      rw [halves, List.foldl_cons, inductionHypothesis, meet]
      apply meet_congr
      intro other _ below
      have total := sum_halves k
      rw [shuffleXor, xor_two_pow (by omega)]

/-- A distance that two lanes may be apart without having different values. -/
def Alike (o : Nat) (values : Nat → Value) : Prop := ∀ lane, values (lane ^^^ o) = values lane

theorem alike_shuffleXor (commutes : ∀ a b, op a b = op b a) (o : Nat) :
    Alike o (shuffleXor op values o) := by
  intro lane
  rw [shuffleXor, shuffleXor, Nat.xor_assoc, Nat.xor_self, Nat.xor_zero]
  exact commutes _ _

theorem Alike.shuffleXor {p : Nat} (alike : Alike p values) (o : Nat) :
    Alike p (shuffleXor op values o) := by
  intro lane
  rw [Library.shuffleXor, Library.shuffleXor, alike lane, Nat.xor_assoc, Nat.xor_comm p o,
    ← Nat.xor_assoc, alike]

theorem Alike.foldl {p : Nat} (alike : Alike p values) (offsets : List Nat) :
    Alike p (offsets.foldl (Library.shuffleXor op) values) := by
  induction offsets generalizing values with
  | nil => exact alike
  | cons o rest inductionHypothesis => exact inductionHypothesis (alike.shuffleXor o)

/-- Behind a butterfly every lane has the value of the first. -/
theorem foldl_shuffleXor_const (commutes : ∀ a b, op a b = op b a) (k : Nat) :
    ∀ lane < 2 ^ k, (halves k).foldl (shuffleXor op) values lane =
      (halves k).foldl (shuffleXor op) values 0 := by
  induction k generalizing values with
  | zero =>
      intro lane below
      rw [show lane = 0 by omega]
  | succ k inductionHypothesis =>
      intro lane below
      rw [halves, List.foldl_cons]
      have across := @Alike.foldl _ op _ _ (@alike_shuffleXor _ op values commutes (2 ^ k)) (halves k)
      by_cases low : lane < 2 ^ k
      · exact inductionHypothesis lane low
      · rw [← across lane, xor_sub_two_pow (Nat.le_of_not_lt low) below]
        rw [Nat.pow_succ] at below
        exact inductionHypothesis _ (by omega)

/-- The loop reads above what it has written. -/
theorem foldHalf_apply {o : Nat} :
    foldHalf op values o lane = if lane < o then op (values (lane + o)) (values lane)
      else values lane := by
  have prefixes : ∀ count ≤ o, ∀ lane,
      (List.range count).foldl
          (fun values l => Function.update values l (op (values (l + o)) (values l))) values lane =
        if lane < count then op (values (lane + o)) (values lane) else values lane := by
    intro count
    induction count with
    | zero =>
        intro _ lane
        rw [if_neg (Nat.not_lt_zero lane)]
        rfl
    | succ count inductionHypothesis =>
        intro within lane
        rw [List.range_succ, List.foldl_append, List.foldl_cons, List.foldl_nil]
        by_cases here : lane = count
        · subst here
          rw [Function.update_self, inductionHypothesis (by omega), inductionHypothesis (by omega),
            if_neg (by omega), if_neg (Nat.lt_irrefl lane), if_pos (Nat.lt_succ_self lane)]
        · rw [Function.update_of_ne here, inductionHypothesis (by omega)]
          by_cases low : lane < count
          · rw [if_pos low, if_pos (by omega)]
          · rw [if_neg low, if_neg (by omega)]
  exact prefixes o (Nat.le_refl o) lane

theorem foldl_foldHalf (commutes : ∀ a b, op a b = op b a) (k : Nat) :
    (halves k).foldl (foldHalf op) values 0 = meet op (halves k) values 0 := by
  induction k generalizing values with
  | zero => rfl
  | succ k inductionHypothesis =>
      rw [halves, List.foldl_cons, inductionHypothesis, meet]
      apply meet_congr
      intro other _ below
      have total := sum_halves k
      rw [foldHalf_apply, if_pos (by omega), commutes]

end Tree

/-! ## Loops that the lanes share -/

theorem warp_pos : 0 < 32 := by decide

/-- The positions of a lane, `for (i = lane; i < last; i += 32)`. -/
def laneLoop (last lane : Nat) : List Nat := (strides warp_pos last lane).map Prod.fst

theorem laneLoop_perm (last : Nat) :
    ((List.range 32).flatMap (laneLoop last)).Perm (List.range last) := by
  rw [List.perm_ext_iff_of_nodup _ List.nodup_range]
  · intro position
    rw [List.mem_flatMap, List.mem_range]
    constructor
    · rintro ⟨lane, _, member⟩
      exact (mem_starts.mp member).2.1
    · intro below
      obtain ⟨lane, ⟨small, member⟩, _⟩ := @existsUnique_start 32 (by decide) last position below
      exact ⟨lane, List.mem_range.mpr small, member⟩
  · rw [List.nodup_flatMap]
    refine ⟨fun lane _ => starts_nodup, ?_⟩
    apply (List.nodup_range (n := 32)).imp_of_mem
    intro first second inFirst inSecond apart position fromFirst fromSecond
    have below := (mem_starts.mp fromFirst).2.1
    obtain ⟨lane, _, only⟩ := @existsUnique_start 32 (by decide) last position below
    exact apart ((only first ⟨List.mem_range.mp inFirst, fromFirst⟩).trans
      (only second ⟨List.mem_range.mp inSecond, fromSecond⟩).symm)

/-- A loop that takes all lanes at once, and of each lane only what is inside, is the loop of the
lane. -/
theorem foldl_strides_lane {Value : Type u} {step : Nat} {positive : 0 < step} {last start : Nat}
    (body : Nat → Value → Value) (lane : Nat) (init : Value) :
    (strides positive last start).foldl (fun value round =>
        if round.1 + lane < last then body (round.1 + lane) value else value) init =
      ((strides positive last (start + lane)).map Prod.fst).foldl
        (fun value position => body position value) init := by
  induction start using strides.induct positive last generalizing init with
  | case1 start inside inductionHypothesis =>
      rw [strides, if_pos inside, List.foldl_cons, inductionHypothesis]
      have order : start + step + lane = start + lane + step := Nat.add_right_comm _ _ _
      by_cases within : start + lane < last
      · conv_rhs => rw [strides, if_pos within, List.map_cons, List.foldl_cons]
        rw [if_pos within, order]
      · have beyond : ¬start + lane + step < last := by omega
        rw [if_neg within, order, strides, if_neg beyond, strides, if_neg within]
  | case2 start outside =>
      have beyond : ¬start + lane < last := by omega
      rw [strides, if_neg outside, strides, if_neg beyond]
      rfl

/-! ## Sums -/

section Sums

variable {M : Type u} [AddCommMonoid M]

theorem meet_add (values : Nat → M) (k : Nat) :
    meet (· + ·) (halves k) values 0 = ((List.range (2 ^ k)).map values).sum := by
  induction k generalizing values with
  | zero =>
      rw [pow_zero, List.range_one, List.map_singleton, List.sum_singleton]
      rfl
  | succ k inductionHypothesis =>
      rw [halves, meet, inductionHypothesis, List.sum_map_add, Nat.pow_succ, Nat.mul_two,
        List.range_add, List.map_append, List.sum_append, List.map_map]
      congr 3
      funext lane
      exact congrArg values (Nat.add_comm lane (2 ^ k))

/-- What the lanes sum up of a loop that they share is the sum over the loop. -/
theorem meet_laneLoop (f : Nat → M) (last : Nat) :
    meet (· + ·) (halves 5) (fun lane => ((laneLoop last lane).map f).sum) 0 =
      ((List.range last).map f).sum := by
  rw [meet_add, ← ((laneLoop_perm last).map f).sum_eq, List.map_flatMap, List.flatMap_def,
    List.sum_flatten, List.map_map]
  rfl

end Sums

end KairosEngine.Library
