import Mathlib.Data.Nat.Basic
import Mathlib.Order.Lattice

/-!
# Shares of a range

Threads divide the positions below `count` among themselves: thread `t` of `n` takes those from
`count * t / n` up to `count * (t + 1) / n`.
-/

namespace KairosEngine.Library

/-- Where the share of a thread starts, which is where that of the one before it ends. -/
def shareStart (count n t : Nat) : Nat := count * t / n

variable {count n : Nat}

theorem shareStart_zero : shareStart count n 0 = 0 := by rw [shareStart, Nat.mul_zero, Nat.zero_div]

theorem shareStart_self (positive : 0 < n) : shareStart count n n = count :=
  Nat.mul_div_cancel count positive

theorem shareStart_mono {t u : Nat} (order : t ≤ u) : shareStart count n t ≤ shareStart count n u :=
  Nat.div_le_div_right (Nat.mul_le_mul_left count order)

/-- Below the end of the first threads' shares, every position is in the share of one of them. -/
theorem exists_share {threads position : Nat} (below : position < shareStart count n threads) :
    ∃ t < threads, shareStart count n t ≤ position ∧ position < shareStart count n (t + 1) := by
  induction threads with
  | zero =>
      rw [shareStart_zero] at below
      exact absurd below (Nat.not_lt_zero position)
  | succ threads inductionHypothesis =>
      by_cases before : position < shareStart count n threads
      · obtain ⟨t, earlier, inside⟩ := inductionHypothesis before
        exact ⟨t, Nat.lt_succ_of_lt earlier, inside⟩
      · exact ⟨threads, Nat.lt_succ_self threads, Nat.le_of_not_lt before, below⟩

end KairosEngine.Library
