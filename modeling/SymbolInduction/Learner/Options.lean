-- How a learner works: when it searches and for how long, what it promotes,
-- and when its symbols are sure.
import SymbolInduction.Evidence
import SymbolInduction.Learner.Guard
import SymbolInduction.Learner.Schedule
import SymbolInduction.Oracle.Basic

namespace SymbolInduction.Learner

/-- The sum of two numbers. -/
def canonicalAdd : Term :=
  .lambdas 2 (.applied (.prim .add) [.var 1, .var 0])

/-- The difference of two numbers, and nothing where it would be negative. -/
def canonicalMonus : Term :=
  .lambdas 2
    (.applied (.prim .cond)
      [.applied (.prim .gt) [.var 1, .var 0], .applied (.prim .sub) [.var 1, .var 0], .literal 0])

/-- How a learner works. -/
structure Options (α : Type) where
  seed : Nat := 0
  schedule : Schedule := .everyNth 5
  guard : PromotionGuard := .forbidding PromotionGuard.slowMarkers
  /-- Whether the programs of solved symbols become components. -/
  promotes : Bool := false
  /-- Whether the grammar starts with recursion. -/
  recursion : Bool := true
  /-- Whether frontiers are scored anew before a search. -/
  rescores : Bool := false
  /-- The time of a search: where some task takes arguments, and where none
  does. -/
  longTimeout : Duration := .ofSeconds 300
  shortTimeout : Duration := .ofSeconds 5
  iterations : Nat := 1
  maximumFrontier : Nat := 5
  extractor : Extractor := .learned 64
  /-- The programs that take the place of others that agree with them. -/
  add : Term := canonicalAdd
  monus : Term := canonicalMonus
  settings : Settings α

/-- The options that are used where none are given. -/
def Options.default {α : Type} [Scalar α] : Options α := { settings := .default }

end SymbolInduction.Learner
