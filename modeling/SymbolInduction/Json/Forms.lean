-- The forms in which values, examples, types and saved symbols are written as
-- JSON. One of several kinds is an object whose only member names the kind; a
-- kind without content is its name alone. A record is an object of its
-- fields, in which other members are passed over, or the array of its fields.
import SymbolInduction.Json.Printer
import SymbolInduction.Json.Reader
import SymbolInduction.Symbol.Saved

namespace SymbolInduction.Json

namespace Tree

/-! ## Numbers -/

/-- A signed word. -/
def toInt64? : Tree → Option Int64
  | number n => n.toInt?.bind Decimal.int64OfInt?
  | _ => none

/-- An unsigned word. -/
def toWord? : Tree → Option Nat
  | number n => n.toInt?.bind fun k => if 0 ≤ k ∧ k < UInt64.size then some k.toNat else none
  | _ => none

/-- A double. -/
def toFloat? : Tree → Option Float
  | number n => n.toFloat?
  | _ => none

/-! ## Values -/

/-- The form of a value. -/
def ofValue : Value → Tree
  | .int n => record [("Int", ofInt n.toInt)]
  | .tuple ns => record [("Tuple", array (ns.map fun n => ofInt n.toInt))]
  | .empty => ofString "Empty"
  | .missing => ofString "Missing"

/-- The value of a form. -/
def toValue? : Tree → Option Value
  | object [(some "Int", t)] => t.toInt64?.map .int
  | object [(some "Tuple", array ts)] => (ts.mapM toInt64?).map .tuple
  | string (some "Empty") | object [(some "Empty", null)] => some .empty
  | string (some "Missing") | object [(some "Missing", null)] => some .missing
  | _ => none

/-! ## Types -/

/-- The form of a type. -/
def ofRequest : Request → Tree
  | .int => ofString "Int"
  | .list r => record [("List", ofRequest r)]
  | .arrow a r => record [("Arrow", array [ofRequest a, ofRequest r])]

/-- How many brackets of a form may be open at once. -/
def depthLimit : Nat := 127

/-- The type of a form in which no more than `depth` brackets are open at
once. -/
def toRequestWithin? : (depth : Nat) → Tree → Option Request
  | _, string (some "Int") | _ + 1, object [(some "Int", null)] => some .int
  | depth + 1, object [(some "List", t)] => (toRequestWithin? depth t).map .list
  | depth + 2, object [(some "Arrow", array [t, u])] => do
    let a ← toRequestWithin? depth t
    let r ← toRequestWithin? depth u
    pure (.arrow a r)
  | _, _ => none

/-- The type of a form. -/
def toRequest? (t : Tree) : Option Request := t.toRequestWithin? depthLimit

/-! ## Records -/

/-- The fields of a record by their names. An array has all of them; an object
may leave out some, but holds none of them twice. -/
def fields? (names : List String) : Tree → Option (List (Option Tree))
  | array ts => if ts.length = names.length then some (ts.map some) else none
  | object ms =>
    if ms.all (·.1.isSome) && names.all (fun name => ms.countP (·.1 = some name) ≤ 1) then
      some (names.map fun name => ms.lookup (some name))
    else none
  | _ => none

/-- The form of an example. -/
def ofExample (e : Example) : Tree :=
  record [("inputs", array (e.inputs.map ofValue)), ("output", ofValue e.output)]

/-- The arguments that an array holds. -/
def toInputs? : Tree → Option Inputs
  | array ts => ts.mapM toValue?
  | _ => none

/-- The example of a form. -/
def toExample? (t : Tree) : Option Example := do
  match ← t.fields? ["inputs", "output"] with
  | [some xs, some y] => pure { inputs := ← xs.toInputs?, output := ← y.toValue? }
  | _ => none

/-- The form of a saved symbol. -/
def ofSaved (s : SavedSymbol Float) : Tree :=
  record
    [("idx", ofInt s.idx), ("solved", bool s.solved), ("likelihood", ofFloat s.likelihood),
      ("arity", ofInt s.arity), ("program", s.program.elim null ofString)]

/-- The program of a saved symbol: a text, or none. -/
def toProgram? : Option Tree → Option (Option String)
  | none | some null => some none
  | some (string (some s)) => some (some s)
  | _ => none

/-- The saved symbol of a form. -/
def toSaved? (t : Tree) : Option (SavedSymbol Float) := do
  match ← t.fields? ["idx", "solved", "likelihood", "arity", "program"] with
  | [some idx, some (bool solved), some likelihood, some arity, program] =>
    pure
      { idx := ← idx.toWord?, solved, likelihood := ← likelihood.toFloat?
        arity := ← arity.toWord?, program := ← toProgram? program }
  | _ => none

/-- The form of a saved model. -/
def ofModel (model : List (SavedSymbol Float)) : Tree := array (model.map ofSaved)

/-- The saved model of a form. -/
def toModel? : Tree → Option (List (SavedSymbol Float))
  | array ts => ts.mapM toSaved?
  | _ => none

end Tree

end SymbolInduction.Json
