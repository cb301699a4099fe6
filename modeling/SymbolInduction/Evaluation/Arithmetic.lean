-- Arithmetic on signed words that refuses a result out of range.
import SymbolInduction.Decimal.Word
import SymbolInduction.Evaluation.Meter

namespace SymbolInduction.Arithmetic

/-- A result that fits in a word, or an overflow. -/
def fitting (n : Int) : Except EvalError Int64 :=
  match Decimal.int64OfInt? n with
  | some n => .ok n
  | none => .error .overflow

/-- The sum, where it fits in a word. -/
def add (a b : Int64) : Except EvalError Int64 := fitting (a.toInt + b.toInt)

/-- The difference, where it fits in a word. -/
def sub (a b : Int64) : Except EvalError Int64 := fitting (a.toInt - b.toInt)

/-- The product, where it fits in a word. -/
def mul (a b : Int64) : Except EvalError Int64 := fitting (a.toInt * b.toInt)

/-- The sum of a list from the left, where every sum on the way fits. -/
def sum (ns : List Int64) : Except EvalError Int64 := ns.foldlM add 0

end SymbolInduction.Arithmetic
