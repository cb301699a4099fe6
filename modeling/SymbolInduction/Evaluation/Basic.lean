-- The evaluator. Arguments are evaluated from the left, each applied before
-- the next one is evaluated; only `if` written with all its arguments leaves
-- one of them alone. The recursion runs on the number of steps that are left,
-- which is what makes it end: a call that finds none left is a call over the
-- step limit. It runs on any state with counters on it, so it can be watched.
import SymbolInduction.Evaluation.Datum
import SymbolInduction.Evaluation.Arithmetic

namespace SymbolInduction.Evaluation

open Metered

variable {σ : Type}

/-! ## Primitives -/

/-- A binary operation on numbers, which are checked from the left. -/
def arithmetic (op : Int64 → Int64 → Except EvalError Int64) (a b : Datum) : Counting σ Datum := do
  let a ← ofExcept (a.asInt "arithmetic")
  let b ← ofExcept (b.asInt "arithmetic")
  let n ← ofExcept (op a b)
  pure (.int n)

/-- One turn of the recursion of `f` at `x`: `f` is given its own recursion,
and what comes out is given `x`. -/
def recurseWith [Recorder σ] (limits : Limits) (apply : Datum → Datum → Counting σ Datum)
    (x f : Datum) : Counting σ Datum :=
  nested limits do
    let g ← apply f (.recur f)
    apply g x

/-- What a primitive does with all its arguments, where `apply` applies a
function to one argument. A primitive that is given another number of
arguments fails. -/
def fireWith [Recorder σ] (limits : Limits) (apply : Datum → Datum → Counting σ Datum) :
    Primitive → List Datum → Counting σ Datum
  | .literal n, [] => pure (.int n)
  | .nil, [] => pure (.list [])
  | .incr, [a] => do
    let a ← ofExcept (a.asInt "incr")
    let n ← ofExcept (Arithmetic.add a 1)
    pure (.int n)
  | .decr, [a] => do
    let a ← ofExcept (a.asInt "decr")
    let n ← ofExcept (Arithmetic.sub a 1)
    pure (.int n)
  | .add, [a, b] => arithmetic Arithmetic.add a b
  | .sub, [a, b] => arithmetic Arithmetic.sub a b
  | .mul, [a, b] => arithmetic Arithmetic.mul a b
  | .eq, [a, b] =>
    match a, b with
    | .int a, .int b => pure (.bool (a == b))
    | .list a, .list b => pure (.bool (a == b))
    | _, _ => throw (.typeMismatch "eq?")
  | .gt, [a, b] => do
    let a ← ofExcept (a.asInt "gt?")
    let b ← ofExcept (b.asInt "gt?")
    pure (.bool (decide (b < a)))
  | .cond, [c, t, e] => do
    let c ← ofExcept (c.asBool "if")
    pure (if c then t else e)
  | .cons, [x, xs] => do
    let x ← ofExcept (x.asInt "cons")
    let xs ← ofExcept (xs.asList "cons")
    pure (.list (x :: xs))
  | .car, [xs] => do
    match ← ofExcept (xs.asList "car") with
    | [] => throw (.indexOutOfRange "car")
    | x :: _ => pure (.int x)
  | .cdr, [xs] => do
    match ← ofExcept (xs.asList "cdr") with
    | [] => throw (.indexOutOfRange "cdr")
    | _ :: xs => pure (.list xs)
  | .isNil, [xs] => do
    let xs ← ofExcept (xs.asList "empty?")
    pure (.bool xs.isEmpty)
  | .length, [xs] => do
    let xs ← ofExcept (xs.asList "length")
    pure (.int (Int64.ofNat xs.length))
  | .fix, [x, f] => recurseWith limits apply x f
  | p, args => throw (.arityMismatch p.arity args.length)

/-! ## Terms -/

/-- The value of a variable: that of the binder so many levels out. -/
def lookup (env : List Datum) (i : UInt64) : Counting σ Datum :=
  match env[i.toNat]? with
  | some d => pure d
  | none => throw (.unboundIndex i)

/-- Applies a function to arguments from the left; each is evaluated just
before it is applied. -/
def applyAllWith (eval : Term → Counting σ Datum) (apply : Datum → Datum → Counting σ Datum) :
    Datum → List Term → Counting σ Datum
  | f, [] => pure f
  | f, arg :: args => do
    let x ← eval arg
    let g ← apply f x
    applyAllWith eval apply g args

/-- The value of a head with arguments. Where `if` itself is the head and has
three arguments or more, the condition decides which branch is evaluated, and
the other one is not. -/
def evalSpineWith (eval : Term → Counting σ Datum) (apply : Datum → Datum → Counting σ Datum) :
    Term → List Term → Counting σ Datum
  | .prim .cond, c :: t :: e :: rest => do
    let c ← eval c
    let c ← ofExcept (c.asBool "if")
    let f ← eval (if c then t else e)
    applyAllWith eval apply f rest
  | head, args => do
    let f ← eval head
    applyAllWith eval apply f args

mutual

/-- The value of a term, with at most `fuel` calls within one another. -/
def evalWithin [Recorder σ] (limits : Limits) :
    (fuel : Nat) → Term → List Datum → Counting σ Datum
  | 0, _, _ => refuseStep limits
  | fuel + 1, t, env => do
    tick limits
    match t with
    | .var i => lookup env i
    | .lam body => pure (.closure body env)
    | .prim p => pure ((Datum.ofConstant? p).getD (.waiting p []))
    | .promoted body => evalWithin limits fuel body []
    | .app f x =>
      let (head, args) := (Term.app f x).spine
      nested limits
        (evalSpineWith (fun t => evalWithin limits fuel t env) (applyWithin limits fuel) head args)

/-- The value of a function at one argument, with at most `fuel` calls within
one another. -/
def applyWithin [Recorder σ] (limits : Limits) :
    (fuel : Nat) → Datum → Datum → Counting σ Datum
  | 0, _, _ => refuseStep limits
  | fuel + 1, f, x => do
    tick limits
    match f with
    | .closure body env => nested limits (evalWithin limits fuel body (x :: env))
    | .waiting p given =>
      let given := given ++ [x]
      if given.length = p.arity then fireWith limits (applyWithin limits fuel) p given
      else pure (.waiting p given)
    | .recur f => recurseWith limits (applyWithin limits fuel) x f
    | _ => throw (.typeMismatch "application of a non-function")

end

/-! ## Evaluation under a budget

No call is inside more calls than there are steps left, so the steps left are
fuel enough. -/

/-- The value of a term in an environment. -/
def eval (limits : Limits) (t : Term) (env : List Datum) : Metered Datum := fun m =>
  evalWithin limits (limits.steps - m.steps) t env m

/-- The value of a function at one argument. -/
def apply (limits : Limits) (f x : Datum) : Metered Datum := fun m =>
  applyWithin limits (limits.steps - m.steps) f x m

/-- What a primitive does with all its arguments. -/
def fire (limits : Limits) (p : Primitive) (args : List Datum) : Metered Datum := fun m =>
  fireWith limits (applyWithin limits (limits.steps - m.steps)) p args m

/-- One turn of the recursion of `f` at `x`. -/
def recurse (limits : Limits) (x f : Datum) : Metered Datum := fun m =>
  recurseWith limits (applyWithin limits (limits.steps - m.steps)) x f m

/-! ## Programs on observed values -/

/-- Applies a function to observed values from the left. -/
def applyInputs (limits : Limits) : Datum → List Value → Metered Datum
  | f, [] => pure f
  | f, v :: vs => do
    let x ← ofExcept (Datum.ofValue v)
    let g ← apply limits f x
    applyInputs limits g vs

/-- The output of a closed program. A program that does not take as many
arguments as it is given is not evaluated at all. -/
def evaluate (limits : Limits) (program : Term) (inputs : Inputs) : Metered Value := do
  if program.arity ≠ inputs.length then
    throw (.arityMismatch program.arity inputs.length)
  let f ← eval limits program []
  let d ← applyInputs limits f inputs
  ofExcept d.toValue

/-- The outcome of a computation that starts with both counters at zero. -/
def outcome {α : Type} (x : Metered α) : Except EvalError α :=
  match x {} with
  | .ok a _ => .ok a
  | .error e _ => .error e

example : evaluate {} (.lam (.app (.app (.prim .mul) (.var 0)) (.literal 2))) [.int 21] {} =
    .ok (.int 42) ⟨8, 0⟩ := by rfl

end SymbolInduction.Evaluation
