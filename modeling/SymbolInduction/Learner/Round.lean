-- One round of learning: all symbols take in what was observed; where the
-- round is due, their tasks go to the oracle, and what it found is offered to
-- the symbols.
import SymbolInduction.Learner.Merge
import SymbolInduction.Learner.Promotion
import SymbolInduction.Symbol.Tasks

namespace SymbolInduction.Learner

variable {α : Type} [Scalar α]

/-! ## Observations -/

/-- The symbols with their observations, and their tasks where `due` is set.
The observations of a symbol stand in the data set at its number. -/
def observeFrom (draws : (position : Nat) → Draws) (due : Bool) (data : List (List Example)) :
    (position : Nat) → List (Symbol α) → Logged α (List Task × List (Symbol α))
  | _, [] => pure ([], [])
  | position, s :: rest =>
    if s.learnable then do
      let s ← s.observe (data.getD s.idx [])
      let (tasks, rest) ← observeFrom draws due data (position + 1) rest
      pure ((if due then s.task? (draws position) else none).toList ++ tasks, s :: rest)
    else do
      let (tasks, rest) ← observeFrom draws due data (position + 1) rest
      pure (tasks, s :: rest)

/-- The next round begins: its observations are taken in, and its tasks are
made. -/
def observe (l : Learner α) (source : DrawSource) (data : List (List Example)) :
    Logged α (List Task × Learner α) := do
  let round := l.round + 1
  let draws := source l.options.seed round
  let (tasks, symbols) ← observeFrom draws (l.options.schedule round) data 0 l.symbols
  pure (tasks, { l with round, symbols })

/-! ## The query -/

/-- The least likelihood of a candidate that is kept. -/
def rescoreFloor : α := Scalar.ratio 1 10

/-- Scores candidates on examples, and keeps those that are likely enough. -/
def rescoreCandidates (penalty : α) (examples : List Example) :
    List (Candidate α) → Logged α (List (Candidate α))
  | [] => pure []
  | c :: cs => do
    let (score, _) ← Explanation.score (some (.ofTerm c.program)) examples (some penalty)
    let cs ← rescoreCandidates penalty examples cs
    let c := { c with logLikelihood := Scalar.log score.likelihood }
    pure (if Scalar.le rescoreFloor score.likelihood then c :: cs else cs)

/-- Scores the candidates of each task on its present examples. -/
def rescoreFrontiers (l : Learner α) : List Task → Logged α (Learner α)
  | [] => pure l
  | t :: ts => do
    let f := (l.frontiers.get? t.name).getD (.unexplored t)
    let candidates ← rescoreCandidates l.options.settings.arityPenalty t.examples f.candidates
    let frontiers := l.frontiers.insert t.name { f with candidates }
    rescoreFrontiers { l with frontiers } ts

/-- Drops what was explored before where it no longer holds for the grammar and
the types of the tasks. -/
def dropStale (l : Learner α) (tasks : List Task) : Logged α (Learner α) :=
  match l.exploration with
  | none => pure l
  | some x =>
    if x.isValidFor l.grammar (requestsOf tasks) then pure l
    else do
      .note (.explorationDropped x.grammarVersion)
      pure { l with exploration := none }

/-- The budget of a search for some tasks. -/
def budgetFor (c : Options α) (tasks : List Task) : SearchBudget where
  timeout := if tasks.any (0 < ·.arity) then c.longTimeout else c.shortTimeout
  iterations := c.iterations
  maximumFrontier := c.maximumFrontier
  extractor := c.extractor

/-- Makes ready for a search, and says what the oracle is asked. -/
def ask (l : Learner α) (tasks : List Task) : Logged α (Query × Learner α) := do
  tasks.forM fun t => .note (.task t)
  let l ← if l.options.promotes then Prod.snd <$> l.updateGrammar else pure l
  let l ← if l.options.rescores then l.rescoreFrontiers tasks else pure l
  let l ← l.dropStale tasks
  let budget := budgetFor l.options tasks
  pure ({ grammar := l.grammar, tasks, budget, exploration := l.exploration }, l)

/-! ## The findings -/

/-- Offers the best candidate of a frontier to the symbol it is named for. Says
whether the symbol took it. A name that is no number and a frontier without
candidates are passed over. -/
def adopt (l : Learner α) (name : String) (f : Frontier α) : Logged α (Bool × Learner α) :=
  match Task.symbolNamed? name, f.best? with
  | some idx, some best =>
    match l.symbols[idx]? with
    | none => do
      .note (.unknownTask name)
      pure (false, l)
    | some s => do
      let (taken, s) ← s.consider (.ofTerm best.program)
      pure (taken, { l with symbols := l.symbols.set idx s })
  | _, _ => pure (false, l)

/-- Offers all solutions. Says how many were taken. -/
def adoptAll (l : Learner α) : List (String × Frontier α) → Logged α (Nat × Learner α)
  | [] => pure (0, l)
  | (name, f) :: rest => do
    let (taken, l) ← l.adopt name f
    let (n, l) ← l.adoptAll rest
    pure ((if taken then 1 else 0) + n, l)

/-- Takes in what an oracle has found. Says how many programs were taken, and
how many symbols were cleared. -/
def takeIn (l : Learner α) (found : Findings α) : Logged α (Nat × Nat × Learner α) := do
  let (updated, l) ← l.adoptAll found.solutions.entries
  let l := { l with
    frontiers := found.frontiers
    exploration := found.exploration.or l.exploration }
  let (merged, l) ← l.merge
  pure (updated, merged, l)

/-! ## The round -/

/-- The first half of a round: observes, and makes ready for a search. Says what
the oracle is asked; nothing where there is no task. -/
def start (l : Learner α) (source : DrawSource) (data : List (List Example)) :
    Logged α (Option Query × Learner α) := do
  let (tasks, l) ← l.observe source data
  if tasks.isEmpty then
    .note (.noTasks l.round)
    pure (none, l)
  else
    let (q, l) ← l.ask tasks
    pure (some q, l)

/-- One round of learning. Where the program stops in the search, there is no
report, and the learner stays as it was made ready. -/
def learn (l : Learner α) (source : DrawSource) (data : List (List Example)) (oracle : Oracle α) :
    Logged α (Except Panic Report × Learner α) := do
  let (query, l) ← l.start source data
  match query with
  | none => Prod.map .ok id <$> l.finish { round := l.round }
  | some q =>
    let report : Report := { round := l.round, tasks := q.tasks.length }
    match ← oracle q with
    | .error (.panicked p) => pure (.error p, l)
    | .error (.reported e) =>
      .note (.oracleFailed l.round e)
      Prod.map .ok id <$> l.finish report
    | .ok found =>
      let (updated, merged, l) ← l.takeIn found
      Prod.map .ok id <$> l.finish { report with updated, merged }

end SymbolInduction.Learner
