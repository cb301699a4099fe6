-- Saving what was learned of a symbol, and taking it up again.
import SymbolInduction.Symbol.Basic

namespace SymbolInduction

/-- The saved form of a symbol. The program is saved as its description. -/
structure SavedSymbol (α : Type) where
  idx : Nat
  solved : Bool
  likelihood : α
  arity : Nat
  program : Option String
  deriving DecidableEq, Inhabited

namespace Symbol

variable {α : Type}

/-- The saved form of a symbol. -/
def save (s : Symbol α) : SavedSymbol α where
  idx := s.idx
  solved := s.solved
  likelihood := s.likelihood
  arity := s.arity
  program := s.explanation.map Program.description

/-- Takes up what was saved. A symbol that is not learned keeps its program.
A text that is no program is an error, and comes up only after all else has
been taken over. -/
def load (s : Symbol α) (saved : SavedSymbol α) : Except ParseError Unit × Symbol α :=
  let s := { s with
    idx := saved.idx, solved := saved.solved, likelihood := saved.likelihood, arity := saved.arity }
  if !s.learnable then (.ok (), s)
  else
    match saved.program with
    | none => (.ok (), { s with explanation := none })
    | some text =>
      match Program.ofText text with
      | .ok p => (.ok (), { s with explanation := some p })
      | .error e => (.error e, s)

end Symbol

end SymbolInduction
