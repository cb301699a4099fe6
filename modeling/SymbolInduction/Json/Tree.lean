-- JSON texts as trees. A string with half of a surrogate pair has no
-- characters: it may stand where it is passed over, and nowhere else.
import SymbolInduction.Decimal.Numeral

namespace SymbolInduction.Json

/-- The content of a JSON text. -/
inductive Tree where
  | null
  | bool (b : Bool)
  | number (n : Decimal.Numeral)
  | string (s : Option String)
  | array (items : List Tree)
  | object (members : List (Option String × Tree))
  deriving Inhabited

namespace Tree

/-- A text. -/
def ofString (s : String) : Tree := string (some s)

/-- A whole number. -/
def ofInt (n : Int) : Tree := number (.ofInt n)

/-- A double; null where it is an infinity or no number. -/
def ofFloat (x : Float) : Tree :=
  match Decimal.Numeral.ofDouble? (.ofFloat x) with
  | some n => number n
  | none => null

/-- An object with named members. -/
def record (members : List (String × Tree)) : Tree :=
  object (members.map fun (name, t) => (some name, t))

end Tree

end SymbolInduction.Json
