import Mathlib.Data.Nat.ModEq
import KairosEngine.Library.Ieee

/-!
# Episodes and the recall geometry

The record `recall.rs` keeps of one memory, the policy it may carry, and the model
shape the daemon publishes before any recall path runs.
-/

namespace KairosEngine.Daemon

open KairosEngine.Library

abbrev Text := List Char

/-- The published geometry.  `publish_geometry_kv` ignores a zero component, and a
model has at least one global layer. -/
structure RecallGeometry where
  nl : Nat
  period : Nat
  hd : Nat
  gNh : Nat
  gNkv : Nat
  period_pos : 0 < period
  period_le : period ≤ nl
  hd_pos : 0 < hd
  gNh_pos : 0 < gNh
  gNkv_pos : 0 < gNkv

namespace RecallGeometry

variable (geo : RecallGeometry)

/-- The width of one row `gemma4_kv_read_global_k` writes. -/
def gKvd : Nat := geo.gNkv * geo.hd

def nGlobal : Nat := geo.nl / geo.period

/-- Which global layer carries the fact signal: five eighths of the depth. -/
def l5Layer : Nat := min (geo.nGlobal - 1) (geo.nGlobal * 5 / 8)

def isGlobal (layer : Nat) : Bool := decide (layer % geo.period = geo.period - 1)

theorem nGlobal_pos : 0 < geo.nGlobal := Nat.div_pos geo.period_le geo.period_pos

theorem isGlobal_iff (layer : Nat) : geo.isGlobal layer = true ↔ geo.period ∣ layer + 1 := by
  have positive := geo.period_pos
  have below := Nat.mod_lt layer positive
  rw [isGlobal, decide_eq_true_eq, Nat.dvd_iff_mod_eq_zero, ← Nat.mod_add_mod]
  rcases Nat.lt_or_ge (layer % geo.period + 1) geo.period with inside | wrapped
  · rw [Nat.mod_eq_of_lt inside]
    omega
  · have full : layer % geo.period + 1 = geo.period := by omega
    rw [full, Nat.mod_self]
    omega

/-- The global layers below a bound. -/
def globals (bound : Nat) : List Nat := (List.range bound).filter geo.isGlobal

theorem length_globals (bound : Nat) : (geo.globals bound).length = bound / geo.period := by
  induction bound with
  | zero => simp [globals]
  | succ bound inductionHypothesis =>
      rw [globals, List.range_succ, List.filter_append, List.length_append, ← globals,
        inductionHypothesis, Nat.succ_div]
      congr 1
      by_cases last : geo.period ∣ bound + 1
      · simp [last, (geo.isGlobal_iff bound).mpr last]
      · have other : ¬ geo.isGlobal bound = true := fun found =>
          last ((geo.isGlobal_iff bound).mp found)
        simp [last, other]

/-- One global layer of width one, with two KV heads. -/
def singleRow : RecallGeometry where
  nl := 1
  period := 1
  hd := 1
  gNh := 1
  gNkv := 2
  period_pos := by decide
  period_le := by decide
  hd_pos := by decide
  gNh_pos := by decide
  gNkv_pos := by decide

end RecallGeometry

/-! ## Episodes -/

structure MemPolicy where
  className : String
  delivery : String
  declineWhen : List String
  declineMessage : Text
  deriving DecidableEq

/-- One memory: its replay directory, its text and the keys it is selected by. -/
structure Episode where
  name : String
  dir : String
  npos : Int
  topic : Text
  text : Text
  sig : List Bool
  gk : List Ieee
  gkNg : Nat
  tokens : Option (List Int)
  l5key : List Ieee
  policy : Option MemPolicy
  /-- 0 is active, 1 is superseded. -/
  lifecycle : Nat
  deriving DecidableEq

end KairosEngine.Daemon
