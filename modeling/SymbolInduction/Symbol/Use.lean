-- A symbol in use: as a function of its arguments, and backwards, from the
-- outputs that are wanted to the values of one argument.
import SymbolInduction.Symbol.Basic
import SymbolInduction.Draws

namespace SymbolInduction.Symbol

variable {α : Type} [Scalar α]

/-! ## Forwards -/

/-- Whether the program is trusted more than the evidence. -/
def isTrusted (s : Symbol α) : Bool := Scalar.lt s.settings.sampleThreshold s.likelihood

/-- The arguments that are there. -/
def present (xs : Inputs) : Inputs := xs.filter (· ≠ .empty)

/-- One of the observed outputs, drawn by weight; nothing where the weights
cannot be drawn by. -/
def drawOutput (draw : WeightedDraw α) (t : Tally α) : Except Panic Value := do
  match ← draw.draw (t.entries.map (·.2)) with
  | none => pure .missing
  | some i => entry (t.entries.map (·.1)).toArray i

/-- The value of the symbol at `xs`. Arguments that are absent are left out. A
trusted program gives its output; otherwise one of the outputs that were
observed for these arguments is drawn. -/
def apply (s : Symbol α) (draw : WeightedDraw α) (xs : Inputs) :
    Logged α (Except Panic Value × Symbol α) :=
  if s.isTrusted then do
    let (v, explanation) ← s.explanation.evaluate (present xs)
    pure (.ok v, { s with explanation })
  else
    match s.evidence.get? (present xs) with
    | none => pure (.ok .missing, s)
    | some t => pure (drawOutput draw t, s)

/-! ## Backwards -/

/-- Whether two lists of arguments differ at one position at most. -/
def sameExcept : (position : Nat) → Inputs → Inputs → Bool
  | _, [], [] => true
  | 0, _ :: xs, _ :: ys => xs == ys
  | n + 1, x :: xs, y :: ys => x == y && sameExcept n xs ys
  | _, _, _ => false

/-- The values that were observed at a position beside the other arguments,
where the output observed most is an acceptable one. -/
def observedAt (s : Symbol α) (position : Nat) (xs : Inputs) (acceptable : List Value) :
    List Value :=
  s.evidence.entries.filterMap fun (ys, t) =>
    match t.majority? with
    | some (y, _) =>
      if acceptable.contains y && sameExcept position ys xs then ys[position]? else none
    | none => none

/-- The absent value for a kind of outputs: the empty tuple for tuples, and
the mark of an absent argument for all others. -/
def absentFor : Value → Value
  | .tuple _ => .tuple []
  | _ => .empty

/-- The arguments with the absent value at a position. The mark of an absent
argument takes no place among the others. -/
def withAbsent (position : Nat) (xs : Inputs) (wanted : Value) : Inputs :=
  match wanted with
  | .tuple _ => xs.set position (.tuple [])
  | _ => xs.eraseIdx position

/-- The values at a position, given what the symbol says for the absent one. -/
def solutions (s : Symbol α) (position : Nat) (xs : Inputs) (acceptable : List Value)
    (wanted answer : Value) : List Value :=
  s.observedAt position xs acceptable ++
    if acceptable.contains answer then [absentFor wanted] else []

/-- The values that an argument may have so that the symbol gives an acceptable
output: those that were observed, and the absent value where the symbol itself
gives an acceptable output for it. -/
def solve (s : Symbol α) (draw : WeightedDraw α) (position : Nat) (xs : Inputs)
    (acceptable : List Value) : Logged α (Except Panic (List Value) × Symbol α) :=
  match acceptable with
  | [] => pure (.ok [], s)
  | wanted :: _ =>
    if xs.length ≠ s.arity || s.arity ≤ position then pure (.ok [], s)
    else do
      let (answer, s) ← s.apply draw (withAbsent position xs wanted)
      pure (answer.map (s.solutions position xs acceptable wanted), s)

end SymbolInduction.Symbol
