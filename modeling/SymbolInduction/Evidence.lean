-- The evidence for one symbol: how much weight each output has gathered for
-- each list of arguments, and which outputs are sure enough to learn from.
import SymbolInduction.Scalar
import SymbolInduction.Table
import SymbolInduction.Value

namespace SymbolInduction

/-- When evidence counts, and when a program is good enough. -/
structure Settings (α : Type) where
  /-- What is left of a weight one round later. -/
  decay : α
  /-- The least weight of an output that is learned from. -/
  minConfidence : α
  /-- The output must have more than this share of all the weight. -/
  majorityShare : α
  /-- The likelihood at which a symbol is solved. -/
  solvedThreshold : α
  /-- The fewest and the most examples of a task. -/
  minTaskExamples : Nat
  maxTaskExamples : Nat
  /-- The penalty for many arguments on few examples. -/
  arityPenalty : α
  /-- Above this likelihood the program is trusted more than the evidence. -/
  sampleThreshold : α
  deriving Inhabited

/-- The settings that are used where none are given. -/
def Settings.default {α : Type} [Scalar α] : Settings α where
  decay := Scalar.ratio 1 2
  minConfidence := Scalar.one
  majorityShare := Scalar.ratio 1 2
  solvedThreshold := Scalar.ratio 19 20
  minTaskExamples := 1
  maxTaskExamples := 100
  arityPenalty := Scalar.ofNat 10
  sampleThreshold := Scalar.ratio 1 2

/-- The weights of the outputs for one list of arguments. -/
abbrev Tally (α : Type) := Table Value α

/-- The weights of all outputs that were observed. -/
abbrev Evidence (α : Type) := Table Inputs (Tally α)

variable {α : Type} [Scalar α]

namespace Tally

/-- One more observation of an output. -/
def add (t : Tally α) (y : Value) : Tally α := t.alter y fun w => w.getD Scalar.zero + Scalar.one

/-- The weight of all outputs together. -/
def total (t : Tally α) : α := Scalar.sum (t.entries.map (·.2))

/-- The heavier one of two outputs; of two that weigh the same, the first. -/
def heavier (a b : Value × α) : Value × α := if Scalar.le b.2 a.2 then a else b

/-- The output with the most weight; of several, the smallest. -/
def majority? (t : Tally α) : Option (Value × α) :=
  match t.entries with
  | [] => none
  | e :: es => some (es.foldl heavier e)

/-- The output that is sure enough to be learned from, where there is one. -/
def confident? (s : Settings α) (t : Tally α) : Option Value :=
  match t.majority? with
  | some (y, w) =>
    if Scalar.le s.minConfidence w && Scalar.lt s.majorityShare (w / t.total) then some y else none
  | none => none

end Tally

namespace Evidence

/-- The evidence one round later. -/
def fade (ev : Evidence α) (decay : α) : Evidence α := ev.mapValues (·.mapValues (· * decay))

/-- One more observation. -/
def add (ev : Evidence α) (e : Example) : Evidence α :=
  ev.alter e.inputs fun t => (t.getD {}).add e.output

/-- The evidence after a round of observations. -/
def observe (ev : Evidence α) (decay : α) (batch : List Example) : Evidence α :=
  batch.foldl add (ev.fade decay)

/-- The weight of an output for some arguments; nothing where it was never
observed. -/
def weight (ev : Evidence α) (xs : Inputs) (y : Value) : α :=
  ((ev.get? xs).bind (·.get? y)).getD Scalar.zero

/-- The examples that are sure enough to be learned from, one at most for each
list of arguments, sorted. -/
def confident (ev : Evidence α) (s : Settings α) : List Example :=
  ev.entries.filterMap fun (xs, t) => (t.confident? s).map (Example.mk xs)

end Evidence

end SymbolInduction
