-- The primitives of the program language: number literals and fifteen named
-- operations, each with its name and the number of arguments it waits for.
import SymbolInduction.Decimal.Word

namespace SymbolInduction

/-- A built-in constant or operation. -/
inductive Primitive where
  | literal (n : Int64)
  | incr | decr | add | sub | mul | eq | gt | cond
  | nil | cons | car | cdr | isNil | length | fix
  deriving DecidableEq, Inhabited

namespace Primitive

/-- The operations that have a name, in the order in which a grammar lists
them. -/
def named : List Primitive :=
  [incr, decr, add, sub, mul, eq, gt, cond, nil, cons, car, cdr, isNil, length, fix]

/-- The name of a primitive; a literal is named by its digits. -/
def nameChars : Primitive → List Char
  | literal n => Decimal.int64Chars n
  | incr => ['i', 'n', 'c', 'r']
  | decr => ['d', 'e', 'c', 'r']
  | add => ['+']
  | sub => ['-']
  | mul => ['*']
  | eq => ['e', 'q', '?']
  | gt => ['g', 't', '?']
  | cond => ['i', 'f']
  | nil => ['e', 'm', 'p', 't', 'y']
  | cons => ['c', 'o', 'n', 's']
  | car => ['c', 'a', 'r']
  | cdr => ['c', 'd', 'r']
  | isNil => ['e', 'm', 'p', 't', 'y', '?']
  | length => ['l', 'e', 'n', 'g', 't', 'h']
  | fix => ['f', 'i', 'x']

/-- The name of a primitive as text. -/
def name (p : Primitive) : String := String.ofList p.nameChars

/-- The primitive with a given name. A signed word names a literal, however
it is written. -/
def ofName? (text : List Char) : Option Primitive :=
  match Decimal.int64Of? text with
  | some n => some (literal n)
  | none => named.find? (·.nameChars == text)

/-- How many arguments a primitive takes before it fires. -/
def arity : Primitive → Nat
  | literal _ | nil => 0
  | incr | decr | car | cdr | isNil | length => 1
  | add | sub | mul | eq | gt | cons | fix => 2
  | cond => 3

/-- A primitive that expects a function among its arguments. -/
def isHigherOrder (p : Primitive) : Bool := p = fix

example : named.map (ofName? ·.nameChars) = named.map some := by decide

end Primitive

end SymbolInduction
