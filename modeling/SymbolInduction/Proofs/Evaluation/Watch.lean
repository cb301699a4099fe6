-- Evaluations that are watched. The watch is a recorder of its own for the evaluator: it
-- puts its level on record whenever the counters move. So what the counter of levels does
-- while a call is under way can be read off the record at its end.
import SymbolInduction.Evaluation.Basic

namespace SymbolInduction

/-- The counters, and the levels at which they have stood, last one first. -/
structure Watch where
  meter : Meter
  levels : List Nat := []

/-- The counters move, and their level goes on record. -/
def Watch.moved (w : Watch) (m : Meter) : Watch := ⟨m, m.depth :: w.levels⟩

instance : Recorder Watch where
  meter := Watch.meter
  move := Watch.moved

/-- A computation that keeps a record of its levels, also where it fails. -/
abbrev Watched := Counting Watch

namespace Watched

variable {α : Type}

/-- The end of a computation, without the record. -/
def forget : EStateM.Result EvalError Watch α → EStateM.Result EvalError Meter α
  | .ok a w => .ok a w.meter
  | .error e w => .error e w.meter

/-- The record at the end of a computation. -/
def levels : EStateM.Result EvalError Watch α → List Nat
  | .ok _ w | .error _ w => w.levels

end Watched

namespace Metered

variable {α : Type}

/-! ## The counters under watch -/

theorem tick_watch (limits : Limits) (w : Watch) :
    (tick limits : Watched Unit) w =
      if w.meter.steps < limits.steps then
        .ok () (w.moved { w.meter with steps := w.meter.steps + 1 })
      else refuseStep limits w := rfl

theorem nested_watch (limits : Limits) (x : Watched α) (w : Watch) :
    nested limits x w =
      if w.meter.depth < limits.depth then
        match x (w.moved { w.meter with depth := w.meter.depth + 1 }) with
        | .ok a w => .ok a (w.moved { w.meter with depth := w.meter.depth - 1 })
        | .error e w => .error e (w.moved { w.meter with depth := w.meter.depth - 1 })
      else refuseLevel limits w := by
  unfold nested leave Recorder.meter Recorder.move instRecorderWatch
  dsimp only
  split
  · cases x (w.moved { w.meter with depth := w.meter.depth + 1 }) <;> rfl
  · rfl

end Metered

namespace Evaluation

/-! ## Calls -/

/-- The calls that an evaluation is made of. -/
inductive Call where
  | eval (t : Term) (env : List Datum)
  | apply (f x : Datum)
  | fire (p : Primitive) (args : List Datum)
  | recurse (x f : Datum)

namespace Call

/-- The call under a budget. -/
def run (limits : Limits) : Call → Metered Datum
  | eval t env => Evaluation.eval limits t env
  | apply f x => Evaluation.apply limits f x
  | fire p args => Evaluation.fire limits p args
  | recurse x f => Evaluation.recurse limits x f

/-- The call, with at most `fuel` calls within one another inside it. -/
def runWithin {σ : Type} [Recorder σ] (limits : Limits) (fuel : Nat) : Call → Counting σ Datum
  | eval t env => evalWithin limits fuel t env
  | apply f x => applyWithin limits fuel f x
  | fire p args => fireWith limits (applyWithin limits fuel) p args
  | recurse x f => recurseWith limits (applyWithin limits fuel) x f

/-- The call under a budget, watched. -/
def watch (limits : Limits) (c : Call) : Watched Datum := fun w =>
  c.runWithin limits (limits.steps - w.meter.steps) w

theorem run_eq (limits : Limits) (c : Call) (m : Meter) :
    c.run limits m = c.runWithin limits (limits.steps - m.steps) m := by
  cases c <;> rfl

example : Watched.levels (watch {} (.eval (.app (.prim .incr) (.literal 1)) []) ⟨{}, []⟩) =
    [0, 1, 1, 1, 1, 0] := by rfl

end Call

end Evaluation

end SymbolInduction
