-- Evidence in exact arithmetic: the real numbers as numbers that weigh it.
import Mathlib.Analysis.SpecialFunctions.Log.Basic
import SymbolInduction.Scalar

namespace SymbolInduction

noncomputable instance : Scalar ℝ where
  ofNat n := n
  lt a b := decide (a < b)
  le a b := decide (a ≤ b)
  eq a b := decide (a = b)
  max := max
  isFinite _ := true
  log := Real.log
  rank := cmp

namespace Scalar

@[simp] theorem zero_real : (zero : ℝ) = 0 := Nat.cast_zero

@[simp] theorem one_real : (one : ℝ) = 1 := Nat.cast_one

@[simp] theorem lt_real (a b : ℝ) : Scalar.lt a b = true ↔ a < b := decide_eq_true_iff

@[simp] theorem le_real (a b : ℝ) : Scalar.le a b = true ↔ a ≤ b := decide_eq_true_iff

theorem sum_real (xs : List ℝ) : sum xs = xs.sum := by
  unfold sum
  rw [zero_real, List.sum_eq_foldl]

end Scalar

end SymbolInduction
