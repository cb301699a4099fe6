-- The three kinds of programs that can explain a symbol, and what they do on
-- arguments.
import SymbolInduction.Evaluation.Basic

namespace SymbolInduction

/-- What a program is made of: a term, a function that the domain supplies, or
a constant. A supplied function is a pure one. -/
inductive Body where
  | term (t : Term)
  | supplied (arity : Nat) (f : Inputs → Except EvalError Value)
  | constant (v : Value)

namespace Body

/-- How many arguments a program takes. -/
def arity : Body → Nat
  | term t => t.arity
  | supplied n _ => n
  | constant _ => 0

/-- The text by which a program is known. All supplied functions share one. -/
def description : Body → String
  | term t => t.text
  | supplied .. => "GT"
  | constant v => v.text

/-- The outcome of a program on arguments, from fresh counters. -/
def run : Body → Inputs → Except EvalError Value
  | term t, xs => Evaluation.outcome (Evaluation.evaluate {} t xs)
  | supplied _ f, xs => f xs
  | constant v, _ => .ok v

/-- The output of a program on arguments; a failure has none. -/
def answer (b : Body) (xs : Inputs) : Value :=
  match b.run xs with
  | .ok v => v
  | .error _ => .missing

/-- Whether a program can be asked for an output: it takes so many arguments,
and none of them is missing. -/
def accepts (b : Body) (xs : Inputs) : Bool := xs.length == b.arity && !xs.contains .missing

/-- The output of a program on any list of arguments. -/
def output (b : Body) (xs : Inputs) : Value := if b.accepts xs then b.answer xs else .missing

/-- The value of a program without arguments, where it has one. -/
def constant? (b : Body) : Option Value :=
  if b.arity = 0 then
    match b.run [] with
    | .ok .missing | .error _ => none
    | .ok v => some v
  else none

/-- The short name of a program: its constant value, or `fn`. -/
def name (b : Body) : String :=
  match b.constant? with
  | some v => v.text
  | none => "fn"

/-- How a program is shown: its short name and its description. -/
def text (b : Body) : String := b.name ++ " " ++ b.description

/-- Whether two programs are known to do the same. Programs with constant
values are compared by these; a supplied function without one is like no
program, itself included; all others go by their descriptions. -/
def equivalent (a b : Body) : Bool :=
  a.arity == b.arity &&
    match a.constant?, b.constant? with
    | some v, some w => v == w
    | _, _ =>
      match a, b with
      | supplied .., _ | _, supplied .. => false
      | _, _ => a.description == b.description

end Body

end SymbolInduction
