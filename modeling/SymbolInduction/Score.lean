-- How well an explanation fits examples: the share that it reproduces, less
-- where it takes many arguments and there are few examples.
import SymbolInduction.Program.Basic
import SymbolInduction.Scalar

namespace SymbolInduction

/-- A likelihood, and which examples were reproduced. Without examples there
are no such marks. -/
structure Score (α : Type) where
  likelihood : α
  correct : Option (List Bool)

namespace Score

variable {α : Type} [Scalar α]

/-- How many examples were not reproduced. -/
def misses {α : Type} (s : Score α) : Nat :=
  match s.correct with
  | some marks => marks.count false
  | none => 0

/-- The divisor for an explanation with `arity` arguments on `n` examples:
`penalty * arity / n`, and 1 at least. -/
def discount (penalty : α) (arity n : Nat) : α :=
  Scalar.max (penalty * Scalar.ofNat arity / Scalar.ofNat n) Scalar.one

/-- The score of an explanation with `arity` arguments from its marks. -/
def ofMarks (arity : Nat) (penalty : Option α) (marks : List Bool) : Score α :=
  if marks = [] then { likelihood := Scalar.zero, correct := none }
  else
    let share := Scalar.ofNat (marks.count true) / Scalar.ofNat marks.length
    { likelihood :=
        match penalty with
        | some penalty => share / discount penalty arity marks.length
        | none => share
      correct := some marks }

end Score

namespace Explanation

variable {α : Type}

/-- Which examples an explanation reproduces exactly. -/
def marks (e : Explanation) (examples : List Example) : List Bool :=
  examples.map fun ex => e.output ex.inputs == ex.output

/-- Goes through the examples, and says which ones the explanation reproduces. -/
def check (e : Explanation) : List Example → Logged α (List Bool × Explanation)
  | [] => pure ([], e)
  | ex :: rest => do
    let (v, e) ← e.evaluate ex.inputs
    let (marks, e) ← check e rest
    pure ((v == ex.output) :: marks, e)

/-- Scores an explanation on examples. A penalty discounts programs with many
arguments on few examples. -/
def score [Scalar α] (e : Explanation) (examples : List Example) (penalty : Option α) :
    Logged α (Score α × Explanation) := do
  let (marks, e) ← check e examples
  pure (.ofMarks e.arity penalty marks, e)

/-- The penalty that is used where none is set. -/
def defaultPenalty [Scalar α] : α := Scalar.ofNat 10

end Explanation

end SymbolInduction
