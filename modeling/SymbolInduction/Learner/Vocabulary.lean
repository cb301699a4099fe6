-- Vocabularies: the symbols that a learner starts with.
import SymbolInduction.Program.Basic

namespace SymbolInduction.Learner

/-- A symbol of a vocabulary. -/
structure Entry where
  name : String
  arity : Nat
  groundTruth : Option Program := none
  learnable : Bool := true

/-- A symbol whose program is known and never learned. -/
def Entry.pinned (name : String) (p : Program) : Entry :=
  { name, arity := p.arity, groundTruth := some p, learnable := false }

/-- The symbols that a learner starts with. -/
abbrev Vocabulary := List Entry

end SymbolInduction.Learner
