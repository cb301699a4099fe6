-- Synthesis tasks: a type and the examples that a program has to reproduce.
import SymbolInduction.Value
import SymbolInduction.Request
import SymbolInduction.Text.Pad

namespace SymbolInduction

/-- A synthesis task. Its name is the number of the symbol it is for, so that
an answer finds its way back. -/
structure Task where
  name : String
  request : Request
  examples : List Example
  deriving DecidableEq, Inhabited

namespace Task

/-- The task for the symbol with number `idx`. -/
def forSymbol (idx : Nat) (request : Request) (examples : List Example) : Task :=
  { name := String.ofList (Decimal.natChars idx), request, examples }

/-- The symbol that a name stands for, where the name is an unsigned word. -/
def symbolNamed? (name : String) : Option Nat :=
  (Decimal.uint64Of? name.toList).map (·.toNat)

/-- The symbol that the task is for. -/
def symbol? (t : Task) : Option Nat := symbolNamed? t.name

/-- How many arguments the task's programs take. -/
def arity (t : Task) : Nat := t.request.arity

/-- How a task and its first ten examples are shown. -/
def text (t : Task) : String :=
  let title :=
    match t.symbol? with
    | some idx => "Symbol-" ++ Text.padLeft '0' 2 (toString idx)
    | none => t.name
  let count := Text.padLeft ' ' 3 (toString t.examples.length)
  title ++ " (" ++ t.request.text ++ "), Samples: " ++ count ++
    String.join ((t.examples.take 10).map fun e => " " ++ e.text)

end Task

end SymbolInduction
