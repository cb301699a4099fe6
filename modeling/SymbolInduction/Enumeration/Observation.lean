-- What a search sees of a term: its result on each example. Terms with the
-- same observations are as good as one another, so a search keeps one of them.
import SymbolInduction.Evaluation.Basic

namespace SymbolInduction

/-- The result of a term on one example. The mark of an absent argument is no
result. -/
inductive Observation where
  | int (n : Int64)
  | bool (b : Bool)
  | list (ns : List Int64)
  | failure
  deriving DecidableEq, Inhabited

namespace Observation

/-- The observation of an outcome. A function is not a result that can be
observed. -/
def ofOutcome? : Except EvalError Datum → Option Observation
  | .ok (.int n) => some (int n)
  | .ok (.bool b) => some (bool b)
  | .ok (.list ns) => some (list ns)
  | .ok .empty | .error _ => some failure
  | .ok _ => none

/-- Whether a term with this observation gives the value. -/
def gives : Observation → Value → Bool
  | int n, .int m => n == m
  | list ns, .tuple ms => ns == ms
  | _, _ => false

/-! ## The order -/

/-- The words by which observations are ordered. -/
def key : Observation → List Int64
  | int n => [0, n]
  | bool b => [1, if b then 1 else 0]
  | list ns => 2 :: ns
  | failure => [3]

/-- The key tells observations apart. -/
theorem key_injective {a b : Observation} (h : a.key = b.key) : a = b := by
  cases a <;> cases b <;> simp_all [key]
  split at h <;> split at h <;> simp_all

/-- Observations go by their keys, so that sets of them can be searched. -/
instance : Ord Observation := ⟨compareOn key⟩

instance : Std.TransOrd Observation := inferInstanceAs (Std.TransCmp (compareOn key))

instance : Std.LawfulEqOrd Observation where
  compare_self {a} := show compare a.key a.key = .eq from Std.ReflCmp.compare_self
  eq_of_compare h := key_injective (Std.LawfulEqOrd.eq_of_compare (α := List Int64) h)

end Observation

end SymbolInduction
