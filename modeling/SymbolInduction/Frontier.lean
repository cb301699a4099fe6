-- Frontiers: the candidate programs for one task, each with the logarithms of
-- its prior and of its likelihood.
import SymbolInduction.Scalar
import SymbolInduction.Task
import SymbolInduction.Term.Printer

namespace SymbolInduction

/-- A candidate program. -/
structure Candidate (α : Type) where
  program : Term
  logPrior : α
  logLikelihood : α
  deriving DecidableEq, Inhabited

namespace Candidate

variable {α : Type} [Scalar α]

/-- The logarithm of a candidate's posterior. -/
def logPosterior (c : Candidate α) : α := c.logPrior + c.logLikelihood

/-- Whether the two parts of the posterior are numbers and their sum is none.
This is so for opposite infinities. -/
def isVoid (c : Candidate α) : Bool :=
  Scalar.eq c.logPrior c.logPrior && Scalar.eq c.logLikelihood c.logLikelihood &&
    !Scalar.eq c.logPosterior c.logPosterior

/-- How two candidates rank: by their posteriors, and below all others where
the posterior is void. -/
def rank (a b : Candidate α) : Ordering :=
  match a.isVoid, b.isVoid with
  | false, false => Scalar.rank a.logPosterior b.logPosterior
  | true, false => .lt
  | false, true => .gt
  | true, true => .eq

end Candidate

/-- The candidates for one task. -/
structure Frontier (α : Type) where
  task : String
  request : Request
  candidates : List (Candidate α)
  deriving DecidableEq, Inhabited

namespace Frontier

variable {α : Type}

/-- The frontier of a task before anything is found. -/
def unexplored (t : Task) : Frontier α := { task := t.name, request := t.request, candidates := [] }

variable [Scalar α]

/-- The better one of two candidates; of two that rank alike, the second. -/
def better (a b : Candidate α) : Candidate α :=
  if (a.rank b).isGT then a else b

/-- The best candidate; of several that rank alike, the last. -/
def best? (f : Frontier α) : Option (Candidate α) :=
  match f.candidates with
  | [] => none
  | c :: cs => some (cs.foldl better c)

/-- Sorts the candidates, best first, and keeps at most `n`. Candidates that
rank alike stay in their order. -/
def keepBest (f : Frontier α) (n : Nat) : Frontier α :=
  { f with candidates := (f.candidates.mergeSort fun a b => (b.rank a).isLE).take n }

end Frontier

end SymbolInduction
