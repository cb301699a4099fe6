-- What terms evaluate to: numbers, truth values, lists, the mark of an absent
-- argument, and three kinds of functions.
import SymbolInduction.Value
import SymbolInduction.Term.Printer
import SymbolInduction.Evaluation.Meter

namespace SymbolInduction

/-- A value within an evaluation. A closure keeps the values of its free
variables, innermost first; a primitive keeps the arguments it has been given
so far, first one first; `recur f` stands for the recursion of `f`. -/
inductive Datum where
  | int (n : Int64)
  | bool (b : Bool)
  | list (ns : List Int64)
  | empty
  | closure (body : Term) (env : List Datum)
  | waiting (p : Primitive) (given : List Datum)
  | recur (f : Datum)
  deriving Inhabited

namespace Datum

/-! ## To and from observed values -/

/-- An observed value as an argument. Tuples come in as lists. -/
def ofValue : Value → Except EvalError Datum
  | .int n => .ok (int n)
  | .tuple ns => .ok (list ns)
  | .empty => .ok empty
  | .missing => .error .missingInput

/-- A result as an observed value. Lists go out as tuples; truth values and
functions do not go out. -/
def toValue : Datum → Except EvalError Value
  | int n => .ok (.int n)
  | list ns => .ok (.tuple ns)
  | empty => .ok .empty
  | bool _ => .error (.typeMismatch "boolean result")
  | _ => .error (.typeMismatch "function result")

/-- A value that can be applied to a further argument. -/
def isFunction : Datum → Bool
  | closure .. | waiting .. | recur _ => true
  | _ => false

/-- The number that `place` expects. -/
def asInt (place : String) : Datum → Except EvalError Int64
  | int n => .ok n
  | _ => .error (.typeMismatch place)

/-- The truth value that `place` expects. -/
def asBool (place : String) : Datum → Except EvalError Bool
  | bool b => .ok b
  | _ => .error (.typeMismatch place)

/-- The list that `place` expects. -/
def asList (place : String) : Datum → Except EvalError (List Int64)
  | list ns => .ok ns
  | _ => .error (.typeMismatch place)

/-- The value of a constant primitive. -/
def ofConstant? : Primitive → Option Datum
  | .literal n => some (int n)
  | .nil => some (list [])
  | _ => none

/-! ## The text -/

mutual

/-- The text of a value within an evaluation. -/
def text : Datum → String
  | int n => Decimal.int64Text n
  | bool b => if b then "true" else "false"
  | list ns => "[" ++ String.intercalate " " (ns.map Decimal.int64Text) ++ "]"
  | empty => "empty-marker"
  | closure body env =>
    "closure(" ++ body.text ++ " | " ++ String.intercalate ", " (texts env) ++ ")"
  | waiting p given => "partial(" ++ p.name ++ " | " ++ String.intercalate ", " (texts given) ++ ")"
  | recur f => "recur(" ++ f.text ++ ")"

/-- The texts of several values. -/
def texts : List Datum → List String
  | [] => []
  | d :: ds => d.text :: texts ds

end

end Datum

end SymbolInduction
