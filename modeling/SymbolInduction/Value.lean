-- Observed values: numbers, tuples of numbers and two marks. Values have a
-- total order, so that evidence can be kept sorted, and a text.
import SymbolInduction.Decimal.Word

namespace SymbolInduction

/-- One observed value. `empty` marks an argument that is absent; `missing`
stands for an output that could not be produced. -/
inductive Value where
  | int (n : Int64)
  | tuple (ns : List Int64)
  | empty
  | missing
  deriving DecidableEq, Inhabited

/-- The arguments of one application of a symbol. -/
abbrev Inputs := List Value

/-- One observation: the arguments and what came out. -/
structure Example where
  inputs : Inputs
  output : Value
  deriving DecidableEq, Inhabited

namespace Value

/-! ## The order -/

/-- The words by which values are compared: first the kind, then the numbers. -/
def key : Value → List Int64
  | .int n => [0, n]
  | .tuple ns => 1 :: ns
  | .empty => [2]
  | .missing => [3]

/-- The key tells values apart. -/
theorem key_injective {a b : Value} (h : a.key = b.key) : a = b := by
  cases a <;> cases b <;> simp [key] at h ⊢ <;> exact h

/-- Numbers come first, then tuples, then the two marks. Numbers go by size
and tuples by their first difference. -/
instance : Ord Value := ⟨compareOn key⟩

instance : Std.TransOrd Value := inferInstanceAs (Std.TransCmp (compareOn key))

instance : Std.LawfulEqOrd Value where
  compare_self {a} := show compare a.key a.key = .eq from Std.ReflCmp.compare_self
  eq_of_compare h := key_injective (Std.LawfulEqOrd.eq_of_compare (α := List Int64) h)

/-! ## The text -/

/-- The numbers of a tuple, with commas between them. -/
def joined (ns : List Int64) : String := String.intercalate ", " (ns.map Decimal.int64Text)

/-- The text of a value. A tuple of one number keeps a comma before its
closing bracket. -/
def text : Value → String
  | .int n => Decimal.int64Text n
  | .tuple [n] => "(" ++ joined [n] ++ ",)"
  | .tuple ns => "(" ++ joined ns ++ ")"
  | .empty => "EMPTY"
  | .missing => "MISSING"

/-- The text of a value together with its kind, as journal lines quote it. -/
def quoted : Value → String
  | .int n => "Int(" ++ Decimal.int64Text n ++ ")"
  | .tuple ns => "Tuple([" ++ joined ns ++ "])"
  | .empty => "Empty"
  | .missing => "Missing"

/-- The quoted text of a list of arguments. -/
def quotedList (xs : List Value) : String :=
  "[" ++ String.intercalate ", " (xs.map quoted) ++ "]"

end Value

namespace Example

/-- How many arguments the observation has. -/
def arity (e : Example) : Nat := e.inputs.length

/-- Examples are ordered by their arguments, and then by their outputs. -/
instance : Ord Example where
  compare a b := (compare a.inputs b.inputs).then (compare a.output b.output)

/-- The text of an example. -/
def text (e : Example) : String :=
  "(" ++ String.intercalate ", " (e.inputs.map Value.text) ++ ") -> " ++ e.output.text

example : text ⟨[.int 2, .tuple [3]], .missing⟩ = "(2, (3,)) -> MISSING" := by decide

end Example

end SymbolInduction
