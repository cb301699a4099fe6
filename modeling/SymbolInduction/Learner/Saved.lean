-- Saving what a learner has learned, and taking it up again.
import SymbolInduction.Learner.Basic
import SymbolInduction.Symbol.Saved

namespace SymbolInduction

/-- Why a saved model was not taken up. -/
inductive LoadError where
  | shape (expected found : Nat)
  | program (e : ParseError)
  deriving DecidableEq, Inhabited

/-- What is said of a model that was not taken up. -/
def LoadError.message : LoadError → String
  | .shape expected found => s!"saved model has {found} symbols, learner has {expected}"
  | .program e => "saved program does not parse: " ++ e.message

namespace Learner

variable {α : Type}

/-- The saved form of all symbols. -/
def save (l : Learner α) : List (SavedSymbol α) := l.symbols.map Symbol.save

/-- Loads symbols one after another, up to the first that does not load. Those
before it stay loaded. -/
def loadSymbols : List (Symbol α) → List (SavedSymbol α) →
    Except ParseError Unit × List (Symbol α)
  | s :: symbols, m :: model =>
    match s.load m with
    | (.error e, s) => (.error e, s :: symbols)
    | (.ok (), s) =>
      let (outcome, symbols) := loadSymbols symbols model
      (outcome, s :: symbols)
  | symbols, _ => (.ok (), symbols)

/-- Takes up a saved model, which must have as many symbols. Where there is
none, all stays as it is. -/
def load (l : Learner α) : Option (List (SavedSymbol α)) → Except LoadError Unit × Learner α
  | none => (.ok (), l)
  | some model =>
    if model.length ≠ l.symbols.length then
      (.error (.shape l.symbols.length model.length), l)
    else
      let (outcome, symbols) := loadSymbols l.symbols model
      (outcome.mapError .program, { l with symbols })

end Learner

end SymbolInduction
