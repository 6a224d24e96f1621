import KairosEngine.Library.Checked
import KairosEngine.Library.Garner

/-!
# The byte-exact substrate of `cuda_forward.cu`

The integer helpers that the byte-exact attention and the islands share.  A signed operation that
does not fit a `long long` ends the run with nothing.
-/

namespace KairosEngine.Cuda

open KairosEngine.Library

/-! ## Recombination -/

def bxQ1 : Int := 1073738753

def bxQ2 : Int := 1073732609

def bxInvQ1 : Int := 894602413

/-- `bx_garner`. -/
def bxGarner (r1 r2 : Int) : Option Int := do
  let M ← i64 (bxQ1 * bxQ2)
  let difference ← i64 (r2 - r1)
  let lifted ← i64 (difference.tmod bxQ2 + bxQ2)
  let t := lifted.tmod bxQ2
  let product ← i64 (t * bxInvQ1)
  let t := product.tmod bxQ2
  let high ← i64 (bxQ1 * t)
  let x ← i64 (r1 + high)
  if M.tdiv 2 < x then i64 (x - M) else some x

/-- No operation on residues overflows. -/
theorem bxGarner_eq {r1 r2 : Int} (low1 : 0 ≤ r1) (high1 : r1 < bxQ1) (low2 : 0 ≤ r2)
    (high2 : r2 < bxQ2) :
    bxGarner r1 r2 = some (centered (bxQ1 * bxQ2) (garner bxQ1 bxQ2 bxInvQ1 r1 r2)) := by
  have second : (0 : Int) < bxQ2 := by decide
  have bounds := @garner_bounds bxQ1 bxQ2 bxInvQ1 second r1 low1 high1 r2
  have digit := Int.emod_nonneg ((r2 - r1) * bxInvQ1) second.ne'
  have below := Int.emod_lt_of_pos ((r2 - r1) * bxInvQ1) second
  have lift := Int.lt_tmod_of_pos (r2 - r1) second
  have lift' := Int.tmod_lt_of_pos (r2 - r1) second
  have residue := Int.emod_nonneg (r2 - r1) second.ne'
  have residue' := Int.emod_lt_of_pos (r2 - r1) second
  have product : (r2 - r1) % bxQ2 * bxInvQ1 % bxQ2 = (r2 - r1) * bxInvQ1 % bxQ2 :=
    (Int.mod_modEq (r2 - r1) bxQ2).mul_right bxInvQ1
  unfold garner at bounds ⊢
  unfold bxGarner
  generalize (r2 - r1) * bxInvQ1 % bxQ2 = high at bounds digit below product ⊢
  generalize lifts : (r2 - r1).tmod bxQ2 = lifted at lift lift'
  have t_eq : (lifted + bxQ2).tmod bxQ2 = (r2 - r1) % bxQ2 := lifts ▸ tmod_lifted second
  have product_nonneg : 0 ≤ (r2 - r1) % bxQ2 * bxInvQ1 := mul_nonneg residue (by decide)
  simp only [bxQ1, bxQ2, bxInvQ1] at *
  rw [i64_eq (by decide) (by decide), i64_eq (x := r2 - r1) (by omega) (by omega)]
  simp only [Option.bind_eq_bind, Option.bind_some, lifts]
  rw [i64_eq (x := lifted + 1073732609) (by omega) (by omega)]
  simp only [Option.bind_some, t_eq]
  rw [i64_eq (x := (r2 - r1) % 1073732609 * 894602413) (by omega) (by omega)]
  simp only [Option.bind_some]
  rw [Int.tmod_eq_emod_of_nonneg product_nonneg, product,
    i64_eq (x := 1073738753 * high) (by omega) (by omega)]
  simp only [Option.bind_some]
  rw [i64_eq (x := r1 + 1073738753 * high) (by omega) (by omega)]
  simp only [Option.bind_some]
  have half : (1073738753 * 1073732609 : Int).tdiv 2 = 1073738753 * 1073732609 / 2 := by decide
  unfold centered
  by_cases large : (1073738753 * 1073732609 / 2 : Int) < r1 + 1073738753 * high
  · rw [half, if_pos large, if_pos large, i64_eq (by omega) (by omega)]
  · rw [half, if_neg large, if_neg large]

theorem bxInvQ1_inverts : bxQ1 * bxInvQ1 ≡ 1 [ZMOD bxQ2] := by decide

theorem bxGarner_emod {x : Int} (range : 2 * |x| ≤ bxQ1 * bxQ2 - 1) :
    bxGarner (x % bxQ1) (x % bxQ2) = some x := by
  have first : (0 : Int) < bxQ1 := by decide
  have second : (0 : Int) < bxQ2 := by decide
  have low1 := Int.emod_nonneg x first.ne'
  have high1 := Int.emod_lt_of_pos x first
  have whole := garner_eq_emod bxInvQ1_inverts second low1 high1
    (Int.mod_modEq x bxQ1).symm (Int.mod_modEq x bxQ2).symm
  rw [bxGarner_eq low1 high1 (Int.emod_nonneg x second.ne') (Int.emod_lt_of_pos x second), whole,
    centered_emod (by decide) range]

theorem bxGarner_residues {r1 r2 : Int} (low1 : 0 ≤ r1) (high1 : r1 < bxQ1) (low2 : 0 ≤ r2)
    (high2 : r2 < bxQ2) :
    ∃ x, bxGarner r1 r2 = some x ∧ 2 * |x| ≤ bxQ1 * bxQ2 - 1 ∧ x % bxQ1 = r1 ∧ x % bxQ2 = r2 := by
  have second : (0 : Int) < bxQ2 := by decide
  obtain ⟨nonneg, below⟩ := @garner_bounds bxQ1 bxQ2 bxInvQ1 second r1 low1 high1 r2
  have same := centered_modEq (bxQ1 * bxQ2) (garner bxQ1 bxQ2 bxInvQ1 r1 r2)
  have left := (same.of_mul_right bxQ2).trans (garner_modEq_left r1 r2)
  have right := (same.of_mul_left bxQ1).trans (garner_modEq_right bxInvQ1_inverts r1 r2)
  refine ⟨_, bxGarner_eq low1 high1 low2 high2, centered_bounds (by decide) nonneg below, ?_, ?_⟩
  · exact left.eq.trans (Int.emod_eq_of_lt low1 high1)
  · exact right.eq.trans (Int.emod_eq_of_lt low2 high2)

/-- Recombination is exact on the centered range, inside a `long long`, and onto it. -/
theorem bxGarner_exact :
    bxQ1 * bxInvQ1 ≡ 1 [ZMOD bxQ2] ∧
    (∀ x : Int, 2 * |x| ≤ bxQ1 * bxQ2 - 1 → bxGarner (x % bxQ1) (x % bxQ2) = some x) ∧
    ∀ r1 r2 : Int, 0 ≤ r1 → r1 < bxQ1 → 0 ≤ r2 → r2 < bxQ2 →
      ∃ x, bxGarner r1 r2 = some x ∧ 2 * |x| ≤ bxQ1 * bxQ2 - 1 ∧
        x % bxQ1 = r1 ∧ x % bxQ2 = r2 := by
  refine ⟨bxInvQ1_inverts, fun x range => ?_, fun r1 r2 low1 high1 low2 high2 => ?_⟩
  · exact bxGarner_emod range
  · exact bxGarner_residues low1 high1 low2 high2

theorem bxGarner_exact_negative :
    bxGarner ((-5) % bxQ1) ((-5) % bxQ2) = some (-5) ∧
    ∃ x, bxGarner 7 9 = some x ∧ 2 * |x| ≤ bxQ1 * bxQ2 - 1 ∧ x % bxQ1 = 7 ∧ x % bxQ2 = 9 := by
  constructor
  · exact bxGarner_exact.2.1 (-5) (by decide)
  · exact bxGarner_exact.2.2 7 9 (by decide) (by decide) (by decide) (by decide)

end KairosEngine.Cuda
