-- A learner: the symbols of a vocabulary, the grammar in which their programs
-- are written, and what the searches have left behind.
import SymbolInduction.Learner.Options
import SymbolInduction.Learner.Vocabulary
import SymbolInduction.Symbol.Basic

namespace SymbolInduction

/-- The state of a learner between two rounds. -/
structure Learner (α : Type) where
  options : Learner.Options α
  symbols : List (Symbol α)
  names : List String
  /-- The terms with which every new grammar starts. -/
  baseTerms : List Term
  grammar : Grammar
  frontiers : Table String (Frontier α) := .empty
  exploration : Option Exploration := none
  round : Nat := 0

namespace Learner

variable {α : Type} [Scalar α]

/-! ## New learners -/

/-- The symbol for an entry. A symbol that is not to be learned needs a known
program; without one it is learned all the same. -/
def symbolFor (settings : Settings α) (idx : Nat) (e : Entry) : Symbol α :=
  match e.learnable, e.groundTruth with
  | false, some p => .pinned idx p settings
  | _, groundTruth => { Symbol.fresh idx e.arity settings with groundTruth }

/-- A learner for a vocabulary. -/
def new (vocabulary : Vocabulary) (options : Options α) : Learner α where
  options := options
  symbols := vocabulary.mapIdx (symbolFor options.settings)
  names := vocabulary.map (·.name)
  baseTerms := Grammar.baseTerms options.recursion
  grammar := .ofTerms (Grammar.baseTerms options.recursion) 0

/-! ## Grammars -/

/-- Puts a grammar to use. What was found under the old one is forgotten. -/
def install (l : Learner α) (g : Grammar) : Logged α (Learner α) := do
  .note (.grammar g)
  pure { l with grammar := g, frontiers := .empty, exploration := none }

/-- Puts the grammar of some terms to use, under the next version, where it has
other components than the present one. Says whether it has. -/
def renew (l : Learner α) (terms : List Term) : Logged α (Bool × Learner α) :=
  let g := Grammar.ofTerms terms (l.grammar.version + 1)
  if g.sameComponents l.grammar then pure (false, l)
  else do
    let l ← l.install g
    pure (true, l)

/-! ## Growing -/

/-- The component that a symbol's program becomes, where it is a term that
takes arguments. -/
def component? (s : Symbol α) : Option Term :=
  (s.explanation.bind Program.term?).bind fun t => if t.arity = 0 then none else some (.promoted t)

/-- Freezes all symbols, makes components of their programs, and adds one
symbol that is learned from few examples. Says which number it has. -/
def extend (l : Learner α) (arity : Nat) : Logged α (Nat × Learner α) := do
  let idx := l.symbols.length
  let frozen := l.symbols.map Symbol.freeze
  let symbol : Symbol α := { Symbol.fresh idx arity l.options.settings with fewshot := true }
  let baseTerms := l.baseTerms ++ frozen.filterMap component?
  let l := { l with
    symbols := frozen ++ [symbol], names := l.names ++ [s!"symbol-{idx}"], baseTerms }
  let (_, l) ← l.renew baseTerms
  pure (idx, l)

/-! ## The end of a round -/

/-- What a round has brought. -/
structure Report where
  round : Nat
  tasks : Nat := 0
  updated : Nat := 0
  merged : Nat := 0
  solved : Nat := 0
  grammarVersion : Nat := 0
  deriving DecidableEq, Inhabited

/-- How many symbols are solved. -/
def solvedCount (l : Learner α) : Nat := l.symbols.countP (·.solved)

/-- Notes how a symbol stands. -/
def noteStanding (s : Symbol α) (name : String) : Logged α Unit :=
  .note (.standing s.idx name s.solved s.likelihood s.explanation.text)

/-- Ends a round: completes its report, and notes how all symbols stand. -/
def finish (l : Learner α) (report : Report) : Logged α (Report × Learner α) := do
  .note (.roundEnded l.round l.symbols.length l.solvedCount (l.symbols.countP (·.learnable)))
  (l.symbols.zip l.names).forM fun (s, name) => noteStanding s name
  pure ({ report with solved := l.solvedCount, grammarVersion := l.grammar.version }, l)

end Learner

end SymbolInduction
