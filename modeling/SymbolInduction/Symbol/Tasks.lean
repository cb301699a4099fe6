-- The task that a symbol sets: find a program for its examples. A task with
-- too many examples keeps those that the current program gets wrong, and only
-- some of the others.
import SymbolInduction.Symbol.Basic
import SymbolInduction.Draws

namespace SymbolInduction.Symbol

variable {α : Type}

/-- The examples with their marks. An example without a mark counts as one
that is not reproduced. -/
def withMarks : List Example → List Bool → List (Example × Bool)
  | [], _ => []
  | e :: es, [] => (e, false) :: withMarks es []
  | e :: es, m :: ms => (e, m) :: withMarks es ms

/-- The symbol's examples with their marks. -/
def markedExamples (s : Symbol α) : List (Example × Bool) :=
  withMarks s.examples (s.correct.getD [])

/-- The examples that the current program gets wrong. -/
def wrongExamples (s : Symbol α) : List Example :=
  (s.markedExamples.filter fun (_, m) => !m).map (·.1)

/-- The examples that the current program gets right. -/
def rightExamples (s : Symbol α) : List Example :=
  (s.markedExamples.filter fun (_, m) => m).map (·.1)

/-- At most `max` examples: those that are wrong first, in any order. -/
def sampleExamples (s : Symbol α) (draws : Draws) (max : Nat) : List Example :=
  let wrong := s.wrongExamples
  draws.shuffle <|
    if max ≤ wrong.length then draws.choose max wrong
    else wrong ++ draws.choose (max - wrong.length) s.rightExamples

/-- The examples that some draw may put into the task. -/
def examplesInReach (s : Symbol α) (max : Nat) : List Example :=
  let wrong := s.wrongExamples
  if max = 0 then []
  else if max ≤ wrong.length then wrong
  else wrong ++ s.rightExamples

/-- The type of the task: lists where the first example gives a tuple, numbers
otherwise, for the arguments and for the result. -/
def requestFor (arity : Nat) (e : Example) : Request :=
  let data : Request :=
    match e.output with
    | .tuple _ => .list .int
    | _ => .int
  .ofComponents (List.replicate (arity + 1) data)

theorem arity_requestFor (arity : Nat) (e : Example) : (requestFor arity e).arity = arity := by
  refine Request.arity_ofComponents_replicate ?_ arity
  split <;> rfl

/-- Whether the task leaves out some of the examples. -/
def mustSample (s : Symbol α) : Bool := s.settings.maxTaskExamples < s.examples.length

/-- The symbol's task. There is none where the symbol is solved, is not
learned, or has too few examples. -/
def task? (s : Symbol α) (draws : Draws) : Option Task :=
  if s.examples.length < s.settings.minTaskExamples || s.solved || !s.learnable then none
  else
    match s.examples with
    | [] => none
    | e :: _ =>
      let examples :=
        if s.mustSample then s.sampleExamples draws s.settings.maxTaskExamples else s.examples
      some (.forSymbol s.idx (requestFor s.arity e) examples)

end SymbolInduction.Symbol
