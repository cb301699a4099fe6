-- Oracles: what a learner sends to a search for programs, and what comes back.
import SymbolInduction.Frontier
import SymbolInduction.Journal
import SymbolInduction.Time

namespace SymbolInduction

/-- The types that a batch of tasks asks for. -/
def requestsOf (tasks : List Task) : KeySet Request := Table.setOf (tasks.map (·.request))

/-- Programs that an oracle found, with the grammar version and the types for
which it found them. -/
structure Exploration where
  grammarVersion : Nat
  requests : KeySet Request
  programs : List Term
  deriving DecidableEq, Inhabited

/-- Whether programs found before may be used again: the grammar version and
the set of types must be the same. -/
def Exploration.isValidFor (x : Exploration) (g : Grammar) (requests : KeySet Request) : Bool :=
  x.grammarVersion == g.version && x.requests == requests

/-- The features by which a search may be guided. They are passed on as they
are. -/
inductive Extractor where
  | learned (hidden : Nat)
  | none
  deriving DecidableEq, Inhabited

/-- How a choice of features is shown. -/
def Extractor.text : Extractor → String
  | learned hidden => s!"Learned \x7b hidden: {hidden} \x7d"
  | none => "None"

/-- The budget of a search: its time, its iterations, and how many candidates it
keeps for each task. -/
structure SearchBudget where
  timeout : Duration := .ofSeconds 5
  iterations : Nat := 1
  maximumFrontier : Nat := 5
  extractor : Extractor := .none
  deriving DecidableEq, Inhabited

/-- What an oracle is asked. -/
structure Query where
  grammar : Grammar
  tasks : List Task
  budget : SearchBudget
  exploration : Option Exploration
  deriving DecidableEq, Inhabited

/-- What an oracle answers: the frontiers of the tasks for which it found a
program, by name; all frontiers, by name; and what it found on the way. -/
structure Findings (α : Type) where
  solutions : Table String (Frontier α) := {}
  frontiers : Table String (Frontier α) := {}
  exploration : Option Exploration := none
  deriving Inhabited

/-- A search for programs. -/
abbrev Oracle (α : Type) := Query → Logged α (Except OracleFailure (Findings α))

end SymbolInduction
