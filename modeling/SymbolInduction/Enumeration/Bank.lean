-- The bank of a search: the terms that are kept for one task, no two of which
-- give the same observations on its examples.
import Std.Data.TreeSet.Basic
import SymbolInduction.Enumeration.Observation
import SymbolInduction.Panic

namespace SymbolInduction.Enumeration

/-- A term that is kept, with what it cost and what was observed of it. -/
structure Stored where
  term : Term
  cost : Nat
  signature : List Observation
  deriving DecidableEq, Inhabited

/-- The terms kept for one task, numbered from zero in the order in which they
came, with the numbers of those of each cost. -/
structure Bank where
  /-- The arguments of each example, as values of variables. -/
  environments : List (List Datum)
  /-- The limits of each evaluation. -/
  limits : Limits
  stored : Array Stored := #[]
  byCost : Array (Array Nat)
  seen : Std.TreeSet (List Observation) := {}

namespace Bank

/-- The arguments of an example as the values of variables, the last argument
innermost. One that is missing counts as absent. -/
def environment (xs : Inputs) : List Datum :=
  (xs.map fun v => (Datum.ofValue v).toOption.getD .empty).reverse

/-- The empty bank for some examples, with room for terms up to a cost. -/
def empty (examples : List Example) (maxCost : Nat) (limits : Limits) : Bank where
  environments := examples.map fun e => environment e.inputs
  limits := limits
  byCost := Array.replicate (maxCost + 1) #[]

/-- The most lists that a table can hold, where each takes 24 bytes. -/
def capacity : Nat := (UInt64.size / 2 - 1) / 24

/-- Sets up the empty bank. The program stops where the table by cost has too
many entries to be counted, or to be addressed. -/
def create (examples : List Example) (maxCost : Nat) (limits : Limits) : Except Panic Bank :=
  if UInt64.size ≤ maxCost + 1 then .error .countOverflow
  else if capacity < maxCost + 1 then .error .capacityOverflow
  else .ok (empty examples maxCost limits)

/-- What is observed of a term in one environment. -/
def observe (limits : Limits) (t : Term) (env : List Datum) : Except Panic (Option Observation) :=
  match Evaluation.outcome (Evaluation.eval limits t env) with
  | .error .counterOverflow => .error .countOverflow
  | r => .ok (Observation.ofOutcome? r)

/-- What is observed of a term in some environments; nothing where it is a
function in one of them, and then it is not evaluated in the ones after it. -/
def observeAll (limits : Limits) (t : Term) :
    List (List Datum) → Except Panic (Option (List Observation))
  | [] => .ok (some [])
  | env :: envs => do
    match ← observe limits t env with
    | none => .ok none
    | some o =>
      let os ← observeAll limits t envs
      pure (os.map (o :: ·))

/-- What is observed of a term on every example. -/
def signature (b : Bank) (t : Term) : Except Panic (Option (List Observation)) :=
  observeAll b.limits t b.environments

/-- Whether terms with this signature are left out: they fail on every
example, or there is such a term already. -/
def refuses (b : Bank) (signature : List Observation) : Bool :=
  signature.all (· == .failure) || b.seen.contains signature

/-- The bank with one more term. -/
def store (b : Bank) (s : Stored) : Bank :=
  { b with
    byCost := b.byCost.modify s.cost (·.push b.stored.size)
    stored := b.stored.push s
    seen := b.seen.insert s.signature }

/-- Offers a term at a cost. A term that is kept gets a number. -/
def offer (b : Bank) (term : Term) (cost : Nat) : Except Panic (Option Nat × Bank) := do
  match ← b.signature term with
  | none => .ok (none, b)
  | some signature =>
    if b.refuses signature then .ok (none, b)
    else if cost < b.byCost.size then
      let number := b.stored.size
      .ok (some number, b.store { term, cost, signature })
    else .error (.indexOutOfRange b.byCost.size cost)

/-- How many examples a stored term reproduces. -/
def hits (examples : List Example) (s : Stored) : Nat :=
  (s.signature.zip examples).countP fun (o, e) => o.gives e.output

/-- The terms that a choice takes from the pools. -/
def termsAt (b : Bank) (pools : List (Array Nat)) (choice : List Nat) :
    Except Panic (List Term) :=
  (pools.zip choice).mapM fun (pool, i) => do
    let number ← entry pool i
    let s ← entry b.stored number
    pure s.term

end Bank

end SymbolInduction.Enumeration
