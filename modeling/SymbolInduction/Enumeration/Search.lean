-- Bottom-up enumeration: terms are built in the order of their cost from the
-- components of a grammar, and kept where they show something new. The terms
-- that reproduce an example become candidates.
import SymbolInduction.Enumeration.Bank
import SymbolInduction.Enumeration.Compositions
import SymbolInduction.Oracle.Basic

namespace SymbolInduction.Enumeration

/-- How far a search goes: the greatest cost of a term, the number of stored
terms at which it ends, and the steps for one evaluation. All are words. -/
structure Bounds where
  maxCost : Nat := 7
  maxTerms : Nat := 20000
  stepLimit : Nat := 2000
  maxCost_lt : maxCost < UInt64.size := by decide
  maxTerms_lt : maxTerms < UInt64.size := by decide
  stepLimit_lt : stepLimit < UInt64.size := by decide

namespace Bounds

/-- The bounds that are given as words. -/
def ofWords (maxCost maxTerms stepLimit : UInt64) : Bounds where
  maxCost := maxCost.toNat
  maxTerms := maxTerms.toNat
  stepLimit := stepLimit.toNat
  maxCost_lt := maxCost.toNat_lt
  maxTerms_lt := maxTerms.toNat_lt
  stepLimit_lt := stepLimit.toNat_lt

/-- The limits of each evaluation. -/
def limits (b : Bounds) : Limits where
  steps := b.stepLimit
  steps_lt := b.stepLimit_lt
  depth_lt := Limits.defaultDepth_lt

end Bounds

/-- What a search for one task is given. -/
structure Scope where
  bounds : Bounds
  clock : Clock
  deadline : Nat
  task : Task

/-- How far a search for one task has come. -/
structure Run (α : Type) where
  bank : Bank
  candidates : Array (Candidate α) := #[]
  /-- How often the clock was read. -/
  readings : Nat

/-- Why a run does not go on: it is over, or it went wrong. -/
inductive Stop (α : Type) where
  | over (run : Run α)
  | failed (panic : Panic)

variable {α : Type} [Scalar α]

namespace Run

/-- The candidate for a stored term. The prior falls with the cost, and the
likelihood with every example that is not reproduced. -/
def candidate (task : Task) (s : Stored) (hits : Nat) : Candidate α where
  program := s.term.lambdas task.arity
  logPrior := -Scalar.ofNat s.cost
  logLikelihood := -Scalar.ofNat (task.examples.length - hits) * Scalar.ofNat 100

/-- The candidates with the one for a stored term, where it reproduces an
example. -/
def record (task : Task) (s : Stored) (candidates : Array (Candidate α)) : Array (Candidate α) :=
  let hits := Bank.hits task.examples s
  if hits = 0 then candidates else candidates.push (candidate task s hits)

/-- Offers a term at a cost, and records it where it is kept. -/
def offer (scope : Scope) (cost : Nat) (run : Run α) (term : Term) : Except (Stop α) (Run α) :=
  let { bank, candidates, readings } := run
  match bank.offer term cost with
  | .error e => .error (.failed e)
  | .ok (none, bank) => .ok { bank, candidates, readings }
  | .ok (some number, bank) =>
    match entry bank.stored number with
    | .error e => .error (.failed e)
    | .ok s => .ok { bank, candidates := record scope.task s candidates, readings }

/-- Ends the run once the time is over or enough terms are stored. -/
def goOn (scope : Scope) (run : Run α) : Except (Stop α) (Run α) :=
  let now := scope.clock.now run.readings
  let { bank, candidates, readings } := run
  let run := { bank, candidates, readings := readings + 1 }
  if scope.deadline ≤ now || scope.bounds.maxTerms ≤ run.bank.stored.size then .error (.over run)
  else .ok run

/-- Offers an operation on the terms of one choice. -/
def offerChoice (scope : Scope) (op : Component) (cost : Nat) (pools : List (Array Nat))
    (choice : List Nat) (run : Run α) : Except (Stop α) (Run α) := do
  let run ← run.goOn scope
  match run.bank.termsAt pools choice with
  | .error e => throw (.failed e)
  | .ok args => run.offer scope cost (op.term.applied args)

/-- Offers an operation on all terms with the given costs. -/
def offerCosts (scope : Scope) (op : Component) (cost : Nat) (run : Run α) (costs : List Nat) :
    Except (Stop α) (Run α) :=
  match costs.mapM (entry run.bank.byCost) with
  | .error e => .error (.failed e)
  | .ok pools =>
    if pools.any (·.isEmpty) then .ok run
    else visitChoices (pools.map (·.size)) (offerChoice scope op cost pools) run

/-- Offers all terms of one cost that are an operation on stored terms. -/
def offerLevel (scope : Scope) (ops : List Component) (run : Run α) (cost : Nat) :
    Except (Stop α) (Run α) :=
  ops.foldlM
    (fun run op => (compositions (cost - 1) op.arity).foldlM (offerCosts scope op cost) run) run

end Run

/-! ## The search for one task -/

/-- The first-order components that take no argument. -/
def leaves (g : Grammar) : List Component :=
  g.components.filter fun c => c.isFirstOrder && c.arity == 0

/-- The first-order components that take arguments. -/
def operations (g : Grammar) : List Component :=
  g.components.filter fun c => c.isFirstOrder && c.arity != 0

/-- The terms that are offered at cost one: the bodies of programs that were
found before, where they take as many arguments as the task; the variables;
and the components without arguments. -/
def startingTerms (g : Grammar) (arity : Nat) (seeds : List Term) : List Term :=
  (seeds.filter (·.arity == arity)).map (·.stripLambdas arity) ++
    (List.range arity).map (fun i => Term.var (UInt64.ofNat i)) ++
    (leaves g).map (·.term)

/-- All steps of a search for one task. -/
def steps (scope : Scope) (g : Grammar) (seeds : List Term) (run : Run α) :
    Except (Stop α) (Run α) := do
  let run ← (startingTerms g scope.task.arity seeds).foldlM (Run.offer scope 1) run
  let levels := (List.range (scope.bounds.maxCost - 1)).map (· + 2)
  levels.foldlM (Run.offerLevel scope (operations g)) run

/-- Searches programs for one task. -/
def solveTask (scope : Scope) (g : Grammar) (seeds : List Term) (readings : Nat) :
    Except Panic (Run α) := do
  let bank ← Bank.create scope.task.examples scope.bounds.maxCost scope.bounds.limits
  match steps scope g seeds { bank, readings } with
  | .ok run | .error (.over run) => .ok run
  | .error (.failed p) => .error p

/-- The frontier of a run, cut down to the best candidates. -/
def Run.frontier (task : Task) (maximum : Nat) (run : Run α) : Frontier α :=
  let f : Frontier α := .unexplored task
  { f with candidates := run.candidates.toList }.keepBest maximum

/-! ## The search for several tasks -/

/-- How far a search for several tasks has come. -/
structure Progress (α : Type) where
  solutions : Table String (Frontier α) := .empty
  frontiers : Table String (Frontier α) := .empty
  found : List Term := []
  readings : Nat

/-- A search that keeps a journal and may fail. -/
abbrev Searching (α β : Type) := ExceptT OracleFailure (Logged α) β

/-- A part of a search in which the program may stop. -/
def Searching.of {β : Type} (x : Except Panic β) : Searching α β :=
  ExceptT.mk (pure (x.mapError .panicked))

/-- The progress with the frontier of one more task. -/
def Progress.add (p : Progress α) (name : String) (f : Frontier α) : Progress α :=
  let frontiers := p.frontiers.insert name f
  if f.candidates.isEmpty then { p with frontiers }
  else
    { p with
      frontiers
      solutions := p.solutions.insert name f
      found := p.found ++ f.candidates.map (·.program) }

/-- Searches programs for the task, which has until `deadline`. -/
def visitTask (bounds : Bounds) (clock : Clock) (q : Query) (task : Task) (deadline : Nat)
    (p : Progress α) : Searching α (Progress α) := do
  let seeds := (q.exploration.map (·.programs)).getD []
  let scope : Scope := { bounds, clock, deadline, task }
  let run ← .of (solveTask scope q.grammar seeds p.readings)
  let f : Frontier α := run.frontier task q.budget.maximumFrontier
  ExceptT.lift (.note (.searched task.name run.bank.stored.size f.candidates.length))
  pure { p.add task.name f with readings := run.readings }

/-- The instant until which the first one of so many tasks has time: each has an
equal share of the time that is left. -/
def deadlineFor (clock : Clock) (timeout : Duration) (start tasks readings : Nat) :
    Except Panic Nat := do
  let share ← (timeout.less (clock.now readings - start)).share tasks
  clock.after (clock.now (readings + 1)) share

/-- Searches programs for the tasks that are left. A task that is left with no
time gets nothing, and the first one fails the search. -/
def visitTasks (bounds : Bounds) (clock : Clock) (q : Query) (start : Nat) :
    (isFirst : Bool) → List Task → Progress α → Searching α (Progress α)
  | _, [], p => pure p
  | isFirst, task :: rest, p => do
    let elapsed := clock.now p.readings - start
    let timeout := q.budget.timeout
    if timeout.nanoseconds ≤ elapsed then
      if isFirst then throw (.reported .timeout)
      else
        let p := p.add task.name (.unexplored task)
        visitTasks bounds clock q start false rest { p with readings := p.readings + 1 }
    else
      let deadline ← .of (deadlineFor clock timeout start (rest.length + 1) p.readings)
      let p ← visitTask bounds clock q task deadline { p with readings := p.readings + 2 }
      visitTasks bounds clock q start false rest p

/-- The oracle that enumerates. What it finds is handed back as programs to
start from next time. -/
def oracle (bounds : Bounds) (clock : Clock) : Oracle α := fun q => ExceptT.run do
  let p ← visitTasks bounds clock q (clock.now 0) true q.tasks { readings := 1 }
  pure
    { solutions := p.solutions
      frontiers := p.frontiers
      exploration := some
        { grammarVersion := q.grammar.version
          requests := requestsOf q.tasks
          programs := p.found } }

end SymbolInduction.Enumeration
